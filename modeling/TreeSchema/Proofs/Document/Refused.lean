import TreeSchema.Document.Yaml.Reading
import TreeSchema.Proofs.Document.Json

/-!
# Values that are refused

A document in block notation may have values that no schema document has: tagged values, and
integers that 64 bits do not hold. A reading for a schema stops at the first of them and reports
the way to it; up to there it is the same as a reading that keeps all values. In bracket notation
there are no such values.
-/

namespace TreeSchema.Document

open Checked (bind_eq_ok_iff mapError_eq_ok_iff)
open Yaml (Script Tag)
open Yaml.Script (Place meantBranch scalarTree pass opening untagged typed named?)

/-- A fault with the way to it. -/
abbrev Found := Fault × List Branch

namespace Found

/-- What is found in a value, as found in what holds the value. -/
def below (b : Branch) (f : Found) : Found := (f.1, b :: f.2)

/-- What is found in a key, as found in its mapping. -/
def inKey (f : Found) : Found := (f.1, Stop.keyWay f.1 f.2)

end Found

/-- What a reader reports when it stops, whatever the keys on the way look like. -/
def Stop.found (s : Stop) : Found := (s.fault, s.way.meant)

namespace Tree

mutual

/-- The first refused value of a tree. -/
def refused? : Tree → Option Found
  | refused f _ => some (f, [])
  | list items => refusedItem? 0 items
  | mapping members => refusedMember? members
  | _ => none

/-- The first refused value in items of a list, of which the first has the given index. -/
def refusedItem? : ℕ → List Tree → Option Found
  | _, [] => none
  | i, t :: rest => ((refused? t).map (Found.below (.item i))).or (refusedItem? (i + 1) rest)

/-- The first refused value in members of a mapping: keys are looked at before their values. -/
def refusedMember? : List (Tree × Tree) → Option Found
  | [] => none
  | (k, v) :: rest =>
    (((refused? k).map Found.inKey).or ((refused? v).map (Found.below (meantBranch k)))).or
      (refusedMember? rest)

end

@[simp] theorem refused?_refused (f : Fault) (t : Tree) :
    (refused f t).refused? = some (f, []) := by rw [refused?]

@[simp] theorem refused?_list (items : List Tree) :
    (list items).refused? = refusedItem? 0 items := by rw [refused?]

@[simp] theorem refused?_mapping (members : List (Tree × Tree)) :
    (mapping members).refused? = refusedMember? members := by rw [refused?]

end Tree

namespace Yaml.Script

/-! ### Readings that keep all values and readings that stop -/

/-- A reading that keeps all values, and a reading that stops at refused values. -/
inductive Refuses {α : Type} (refused? : α → Option Found) :
    Except Stop α → Except Stop α → Prop where
  | failed (s s' : Stop) : Refuses refused? (.error s) (.error s')
  | kept {a : α} (free : refused? a = none) : Refuses refused? (.ok a) (.ok a)
  | refused {a : α} {s : Stop} (first : refused? a = some s.found) :
      Refuses refused? (.ok a) (.error s)

section Refuses

variable {α β : Type} {refused? : α → Option Found} {refused' : β → Option Found}
  {x y : Except Stop α}

theorem Refuses.mapError (h : Refuses refused? x y) {F : Stop → Stop} {G : Found → Found}
    (hF : ∀ s, (F s).found = G s.found) :
    Refuses (fun a => (refused? a).map G) (x.mapError F) (y.mapError F) := by
  cases h with
  | failed s s' => exact .failed _ _
  | kept free => exact .kept (by rw [free]; rfl)
  | refused first => exact .refused (by rw [first, hF]; rfl)

/-- A value that is read first, and the rest after it: what is found in the value comes before what
is found in the rest. -/
theorem Refuses.bind (h : Refuses refused? x y) {k k' : α → Except Stop β}
    (free : ∀ a, refused? a = none → Refuses refused' (k a) (k' a))
    (first : ∀ a b found, refused? a = some found → k a = .ok b → refused' b = some found) :
    Refuses refused' (x >>= k) (y >>= k') := by
  cases h with
  | failed s s' => exact .failed s s'
  | kept hfree => exact free _ hfree
  | @refused a s hfirst =>
    change Refuses refused' (k a) (.error s)
    cases hk : k a with
    | error s' => exact .failed s' s
    | ok b => exact .refused (first a b _ hfirst hk)

theorem Refuses.map (h : Refuses refused? x y) {g : α → β} (hg : ∀ a, refused' (g a) = refused? a) :
    Refuses refused' (x >>= fun a => .ok (g a)) (y >>= fun a => .ok (g a)) := by
  refine h.bind (fun a ha => .kept ((hg a).trans ha)) ?_
  rintro a _ found ha ⟨⟩
  exact (hg a).trans ha

/-- Steps that refuse nothing. -/
theorem Refuses.after {γ : Type} (z : Except Stop γ) {k k' : γ → Except Stop β}
    (h : ∀ c, Refuses refused' (k c) (k' c)) : Refuses refused' (z >>= k) (z >>= k') := by
  cases z with
  | error s => exact .failed s s
  | ok c => exact h c

end Refuses

/-! ### Tags and scalars -/

theorem pass_of_free {t : Tree} (h : t.refused? = none) (keep : Bool) : pass keep t = .ok t := by
  cases t with
  | refused f t => simp at h
  | null | bool | integer | fraction | text | list | mapping => rfl

/-- A scalar is refused as a whole or not at all. -/
theorem scalar_refused_or_free (s : Scalar) :
    (∃ f t, s.tree = .refused f t) ∨ s.tree.refused? = none := by
  cases s with
  | integer n =>
    rw [Scalar.tree]
    split
    · exact .inl ⟨_, _, rfl⟩
    · exact .inr (by simp [Tree.refused?])
  | null | bool | float | text => exact .inr (by simp [Scalar.tree, Tree.refused?])

theorem scalarTree_refused_or_free (text : String) (plain : Bool) (tag : Option Tag) :
    (∃ f t, scalarTree text plain tag = .refused f t) ∨
      (scalarTree text plain tag).refused? = none := by
  unfold scalarTree
  split
  · exact .inl ⟨_, _, rfl⟩
  · split
    · exact .inl ⟨_, _, rfl⟩
    · exact scalar_refused_or_free _

theorem refuses_scalarTree (text : String) (plain : Bool) (tag : Option Tag) :
    Refuses Tree.refused? (pass true (scalarTree text plain tag))
      (pass false (scalarTree text plain tag)) := by
  rcases scalarTree_refused_or_free text plain tag with ⟨f, t, h⟩ | h
  · rw [h]
    exact .refused (Tree.refused?_refused f t)
  · rw [pass_of_free h, pass_of_free h]
    exact .kept h

/-- A list or a mapping with its tag: a refused tag comes before everything inside. -/
theorem refuses_opening {α : Type} (tag : Option Tag)
    {k k' : (Tree → Tree) → Except Stop (Tree × α)}
    (inside : Refuses (fun r => r.1.refused?) (k id) (k' id))
    (holds : ∀ f r, k (.refused f) = .ok r → ∃ t, r.1 = .refused f t) :
    Refuses (fun r => r.1.refused?) (opening true tag >>= k) (opening false tag >>= k') := by
  unfold opening
  cases named? tag with
  | none => exact inside
  | some f =>
    change Refuses _ (k (.refused f)) (.error (.here f))
    cases hk : k (.refused f) with
    | error s => exact .failed _ _
    | ok r =>
      obtain ⟨t, ht⟩ := holds f r hk
      exact .refused (by rw [ht]; exact Tree.refused?_refused f t)

/-! ### The readers -/

section Readers

variable {s : Script} {fuel : ℕ}

/-- What the readers of values, lists and mappings do with this much fuel. -/
structure RefusesAll (s : Script) (fuel : ℕ) : Prop where
  tree (depth : ℕ) (p : Place) :
    Refuses (fun r => r.1.refused?) (s.tree true fuel depth p) (s.tree false fuel depth p)
  trees (depth i : ℕ) (p : Place) :
    Refuses (fun r => Tree.refusedItem? i r.1) (s.trees true fuel depth i p)
      (s.trees false fuel depth i p)
  pairs (depth : ℕ) (p : Place) :
    Refuses (fun r => Tree.refusedMember? r.1) (s.pairs true fuel depth p)
      (s.pairs false fuel depth p)

theorem RefusesAll.tree_succ (h : RefusesAll s fuel) (depth : ℕ) (p : Place) :
    Refuses (fun r => r.1.refused?) (s.tree true (fuel + 1) depth p)
      (s.tree false (fuel + 1) depth p) := by
  unfold Script.tree
  split
  · exact .failed _ _
  · exact .after _ fun q => (h.tree depth _).map fun _ => rfl
  · exact (refuses_scalarTree _ _ _).map fun _ => rfl
  · refine refuses_opening _ ?_ ?_
    · cases depth with
      | zero => exact .failed _ _
      | succ depth => exact (h.trees depth 0 _).map fun _ => Tree.refused?_list _
    · intro f r hr
      cases depth with
      | zero => cases hr
      | succ depth =>
        obtain ⟨-, -, ⟨⟩⟩ := bind_eq_ok_iff.mp hr
        exact ⟨_, rfl⟩
  · refine refuses_opening _ ?_ ?_
    · cases depth with
      | zero => exact .failed _ _
      | succ depth => exact (h.pairs depth _).map fun _ => Tree.refused?_mapping _
    · intro f r hr
      cases depth with
      | zero => cases hr
      | succ depth =>
        obtain ⟨-, -, ⟨⟩⟩ := bind_eq_ok_iff.mp hr
        exact ⟨_, rfl⟩
  · exact .failed _ _

theorem RefusesAll.trees_succ (h : RefusesAll s fuel) (depth i : ℕ) (p : Place) :
    Refuses (fun r => Tree.refusedItem? i r.1) (s.trees true (fuel + 1) depth i p)
      (s.trees false (fuel + 1) depth i p) := by
  unfold Script.trees
  split
  · exact .kept (by simp [Tree.refusedItem?])
  · refine ((h.tree depth p).mapError (G := Found.below (.item i)) fun _ => rfl).bind ?_ ?_
    · rintro ⟨t, q⟩ ht
      refine (h.trees depth (i + 1) q).map fun r => ?_
      simp only [Tree.refusedItem?, ht, Option.none_or]
    · rintro ⟨t, q⟩ b found ht hb
      obtain ⟨⟨rest, q'⟩, -, hb⟩ := bind_eq_ok_iff.mp hb
      cases hb
      simp only [Tree.refusedItem?, ht, Option.some_or]

theorem RefusesAll.pairs_succ (h : RefusesAll s fuel) (depth : ℕ) (p : Place) :
    Refuses (fun r => Tree.refusedMember? r.1) (s.pairs true (fuel + 1) depth p)
      (s.pairs false (fuel + 1) depth p) := by
  unfold Script.pairs
  split
  · exact .kept (by simp [Tree.refusedMember?])
  · refine ((h.tree depth p).mapError (G := Found.inKey) fun _ => rfl).bind ?_ ?_
    · rintro ⟨k, q⟩ hk
      refine ((h.tree depth q).mapError (G := Found.below (meantBranch k)) fun _ => rfl).bind ?_ ?_
      · rintro ⟨v, q'⟩ hv
        refine (h.pairs depth q').map fun r => ?_
        simp only [Tree.refusedMember?, hk, hv, Option.none_or]
      · rintro ⟨v, q'⟩ b found hv hb
        obtain ⟨⟨rest, q''⟩, -, hb⟩ := bind_eq_ok_iff.mp hb
        cases hb
        simp only [Tree.refusedMember?, hk, hv, Option.none_or, Option.some_or]
    · rintro ⟨k, q⟩ b found hk hb
      obtain ⟨⟨v, q'⟩, -, hb⟩ := bind_eq_ok_iff.mp hb
      obtain ⟨⟨rest, q''⟩, -, hb⟩ := bind_eq_ok_iff.mp hb
      cases hb
      simp only [Tree.refusedMember?, hk, Option.some_or]

theorem refusesAll (s : Script) (fuel : ℕ) : RefusesAll s fuel := by
  induction fuel with
  | zero =>
    refine ⟨fun _ _ => ?_, fun _ _ _ => ?_, fun _ _ => ?_⟩
    · unfold tree; exact .failed _ _
    · unfold trees; exact .failed _ _
    · unfold pairs; exact .failed _ _
  | succ fuel ih => exact ⟨ih.tree_succ, ih.trees_succ, ih.pairs_succ⟩

end Readers

end Yaml.Script

/-! ### Documents -/

/-- Entries with their ending, and what is left of them when a reader stops in the first value with
a refused part. -/
inductive Cut : List (String × Tree) × Ending → List (String × Tree) × Ending → Prop where
  | complete : Cut ([], .complete) ([], .complete)
  | broken (s : Stop) : Cut ([], .broken s) ([], .broken s)
  | brokenValue (key : String) (s s' : Stop) :
      Cut ([], .brokenValue key s) ([], .brokenValue key s')
  | refused {key : String} {t : Tree} {rest : List (String × Tree)} {ending : Ending} {s : Stop}
      {found : Found} (first : t.refused? = some found)
      (reports : s.found = found.below (.key key)) :
      Cut ((key, t) :: rest, ending) ([], .brokenValue key s)
  | kept {key : String} {t : Tree} {rest left : List (String × Tree)} {ending left' : Ending}
      (free : t.refused? = none) (tail : Cut (rest, ending) (left, left')) :
      Cut ((key, t) :: rest, ending) ((key, t) :: left, left')

/-- A reader does not stop in entries without refused values. -/
theorem Cut.append {before rest : List (String × Tree)} {ending : Ending}
    {y : List (String × Tree) × Ending} (h : Cut (before ++ rest, ending) y)
    (free : ∀ x ∈ before, x.2.refused? = none) :
    ∃ left left', Cut (rest, ending) (left, left') ∧ y = (before ++ left, left') := by
  induction before generalizing y with
  | nil => exact ⟨y.1, y.2, h, rfl⟩
  | cons x before ih =>
    obtain ⟨hx, hbefore⟩ := List.forall_mem_cons.mp free
    cases h with
    | refused first reports =>
      rw [hx] at first
      cases first
    | kept free tail =>
      obtain ⟨left, left', hleft, heq⟩ := ih tail hbefore
      cases heq
      exact ⟨left, _, hleft, rfl⟩

/-- A reader that comes to the end of a document has met no refused value. -/
theorem Cut.eq_of_complete {x : List (String × Tree) × Ending} {left : List (String × Tree)}
    (h : Cut x (left, .complete)) : x = (left, .complete) := by
  induction left generalizing x with
  | nil => cases h; rfl
  | cons entry left ih =>
    cases h with
    | kept free tail => cases ih tail; rfl

/-- Of entries without refused values everything is left. -/
theorem Cut.of_free {entries : List (String × Tree)} (ending : Ending)
    (free : ∀ x ∈ entries, x.2.refused? = none) : Cut (entries, ending) (entries, ending) := by
  induction entries with
  | nil =>
    cases ending with
    | complete => exact .complete
    | broken s => exact .broken s
    | brokenValue key s => exact .brokenValue key s s
  | cons entry rest ih =>
    obtain ⟨hentry, hrest⟩ := List.forall_mem_cons.mp free
    exact .kept hentry (ih hrest)

theorem Yaml.Script.cut_entries (s : Script) (n : ℕ) (p : Place) :
    Cut (s.entries true n p) (s.entries false n p) := by
  induction n generalizing p with
  | zero => exact .broken _
  | succ n ih =>
    unfold Script.entries
    split
    · cases s.fault with
      | none => exact .complete
      | some f => exact .broken _
    · split
      · exact .broken _
      · next k q hkey =>
        have htree := (refusesAll s s.fuel).tree 127 q
        generalize s.tree true s.fuel 127 q = x at htree
        generalize s.tree false s.fuel 127 q = y at htree
        cases htree with
        | failed s s' => exact .brokenValue k _ _
        | kept free => exact .kept free (ih _)
        | refused first => exact .refused first rfl

/-- The same of what stands at the top of a document. -/
inductive Reading.Cut : Reading → Reading → Prop where
  | mapping {entries left : List (String × Tree)} {ending left' : Ending}
      (cut : Document.Cut (entries, ending) (left, left')) :
      Reading.Cut (.mapping entries ending) (.mapping left left')
  | other (description : String) : Reading.Cut (.other description) (.other description)
  | broken (f : Fault) : Reading.Cut (.broken f) (.broken f)

/-- A document with all the values in it. -/
def whole : Format → List Char → Reading
  | .yaml, text => Yaml.readKeeping true text
  | .json, text => Json.read text

theorem cut_yaml (text : List Char) :
    Reading.Cut (whole .yaml text) (Yaml.read text) := by
  unfold whole Yaml.read Yaml.readKeeping
  dsimp only
  split
  · cases (Script.ofText text).fault with
    | none => exact .mapping .complete
    | some f => exact .broken f
  · have hcut := Yaml.Script.cut_entries (Script.ofText text)
      ((Script.ofText text).items.size + 1) ⟨1, 0⟩
    generalize (Script.ofText text).entries true _ _ = x at hcut ⊢
    generalize (Script.ofText text).entries false _ _ = y at hcut ⊢
    exact .mapping hcut
  · split
    · cases (Script.ofText text).fault with
      | none => exact .mapping .complete
      | some f => exact .mapping (.broken _)
    · split
      · exact .other _
      · exact .broken _
  · exact .other _
  · exact .broken _

/-! ### Bracket notation refuses nothing -/

namespace Json

/-- What the readers of values, lists and mappings find with this much fuel has no refused part:
there are no tags, and what 64 bits do not hold is a fraction. -/
structure FreeAll (fuel : ℕ) : Prop where
  tree {depth : ℕ} {cs rest : List Char} {t : Tree} :
    readTree fuel depth cs = .ok (t, rest) → t.refused? = none
  items {depth i : ℕ} {cs rest : List Char} {ts : List Tree} :
    readItems fuel depth i cs = .ok (ts, rest) → ∀ j, Tree.refusedItem? j ts = none
  members {depth : ℕ} {cs rest : List Char} {ms : List (Tree × Tree)} :
    readMembers fuel depth cs = .ok (ms, rest) → Tree.refusedMember? ms = none

section Free

variable {fuel depth i : ℕ} {cs rest : List Char}

theorem FreeAll.tree_succ (h : FreeAll fuel) {t : Tree}
    (hread : readTree (fuel + 1) depth cs = .ok (t, rest)) : t.refused? = none := by
  unfold readTree at hread
  split at hread
  · obtain ⟨-, -, ⟨⟩⟩ := bind_eq_ok_iff.mp hread
    simp [Tree.refused?]
  · cases depth with
    | zero => cases hread
    | succ depth =>
      dsimp only at hread
      split at hread
      · cases hread
        simp [Tree.refusedItem?]
      · obtain ⟨⟨items, r⟩, hitems, ⟨⟩⟩ := bind_eq_ok_iff.mp hread
        simpa using h.items hitems 0
  · cases depth with
    | zero => cases hread
    | succ depth =>
      dsimp only at hread
      split at hread
      · cases hread
        simp [Tree.refusedMember?]
      · obtain ⟨⟨members, r⟩, hmembers, ⟨⟩⟩ := bind_eq_ok_iff.mp hread
        simpa using h.members hmembers
  · obtain ⟨-, -, ⟨⟩⟩ := bind_eq_ok_iff.mp hread
    simp [Tree.refused?]
  · obtain ⟨-, -, ⟨⟩⟩ := bind_eq_ok_iff.mp hread
    simp [Tree.refused?]
  · obtain ⟨-, -, ⟨⟩⟩ := bind_eq_ok_iff.mp hread
    simp [Tree.refused?]
  · obtain ⟨⟨n, r⟩, -, ⟨⟩⟩ := bind_eq_ok_iff.mp hread
    cases n.integer? <;> simp [Tree.refused?]

theorem FreeAll.items_succ (h : FreeAll fuel) {ts : List Tree}
    (hread : readItems (fuel + 1) depth i cs = .ok (ts, rest)) (j : ℕ) :
    Tree.refusedItem? j ts = none := by
  obtain ⟨⟨t, r⟩, ht, hread⟩ := bind_eq_ok_iff.mp hread
  obtain ⟨⟨more, r'⟩, -, hread⟩ := bind_eq_ok_iff.mp hread
  have hfree := h.tree (mapError_eq_ok_iff.mp ht)
  cases more with
  | true =>
    obtain ⟨⟨ts, r⟩, hts, ⟨⟩⟩ := bind_eq_ok_iff.mp hread
    simp [Tree.refusedItem?, hfree, h.items hts]
  | false =>
    cases hread
    simp [Tree.refusedItem?, hfree]

theorem FreeAll.members_succ (h : FreeAll fuel) {ms : List (Tree × Tree)}
    (hread : readMembers (fuel + 1) depth cs = .ok (ms, rest)) :
    Tree.refusedMember? ms = none := by
  obtain ⟨⟨k, r⟩, -, hread⟩ := bind_eq_ok_iff.mp hread
  obtain ⟨⟨t, r'⟩, hvalue, hread⟩ := bind_eq_ok_iff.mp hread
  obtain ⟨r'', -, ht⟩ := bind_eq_ok_iff.mp (mapError_eq_ok_iff.mp hvalue)
  obtain ⟨⟨more, r'''⟩, -, hread⟩ := bind_eq_ok_iff.mp hread
  have hkey : (Tree.text k).refused? = none := by simp [Tree.refused?]
  cases more with
  | true =>
    obtain ⟨⟨ms, r⟩, hms, ⟨⟩⟩ := bind_eq_ok_iff.mp hread
    simp [Tree.refusedMember?, hkey, h.tree ht, h.members hms]
  | false =>
    cases hread
    simp [Tree.refusedMember?, hkey, h.tree ht]

theorem freeAll (fuel : ℕ) : FreeAll fuel := by
  induction fuel with
  | zero => exact ⟨nofun, nofun, nofun⟩
  | succ fuel ih => exact ⟨ih.tree_succ, ih.items_succ, ih.members_succ⟩

end Free

theorem free_readEntries {inner fuel : ℕ} {cs : List Char} :
    ∀ x ∈ (readEntries inner fuel cs).1, x.2.refused? = none := by
  induction fuel generalizing cs with
  | zero => exact List.forall_mem_nil _
  | succ fuel ih =>
    unfold readEntries
    split
    · simp
    · split
      · simp
      · next t r hvalue =>
        obtain ⟨r', -, ht⟩ := bind_eq_ok_iff.mp hvalue
        have hfree := (freeAll inner).tree ht
        split
        · simpa using hfree
        · simpa using hfree
        · exact List.forall_mem_cons.mpr ⟨hfree, ih⟩

end Json

theorem cut_json (text : List Char) : Reading.Cut (whole .json text) (Json.read text) := by
  change Reading.Cut (Json.read text) (Json.read text)
  cases hread : Json.read text with
  | other description => exact .other description
  | broken f => exact .broken f
  | mapping entries ending =>
    refine .mapping (.of_free ending ?_)
    unfold Json.read at hread
    dsimp only at hread
    split at hread
    · split at hread
      · cases hread
        exact nofun
      · cases hread
        exact Json.free_readEntries
    · cases hread
    all_goals exact absurd hread (Json.otherIf_ne_mapping _ _ _)

/-! ### Readings that break off -/

/-- A reading that breaks off in the value of a key names a place in this value. -/
def Reading.StopsBelowKey (r : Reading) : Prop :=
  ∀ entries key stop, r = .mapping entries (.brokenValue key stop) →
    ∃ way, stop.way.meant = .key key :: way

theorem Yaml.Script.stop_of_entries {keep : Bool} {s : Script} {n : ℕ} {p : Place}
    {es : List (String × Tree)} {key : String} {stop : Stop}
    (h : s.entries keep n p = (es, .brokenValue key stop)) :
    ∃ way, stop.way.meant = .key key :: way := by
  induction n generalizing p es with
  | zero => cases h
  | succ n ih =>
    unfold Script.entries at h
    split at h
    · cases hfault : s.fault with
      | none => simp [hfault] at h
      | some f => simp [hfault] at h
    · split at h
      · cases h
      · split at h
        · cases h
          exact ⟨_, rfl⟩
        · next q _ =>
          cases hrest : s.entries keep n q with
          | mk later ending =>
            rw [hrest] at h
            cases h
            exact ih hrest

theorem Yaml.stopsBelowKey (keep : Bool) (text : List Char) :
    (Yaml.readKeeping keep text).StopsBelowKey := by
  intro es key stop h
  unfold Yaml.readKeeping at h
  dsimp only at h
  split at h
  · cases hfault : (Script.ofText text).fault <;> simp [hfault] at h
  · cases hentries : (Script.ofText text).entries keep _ ⟨1, 0⟩ with
    | mk later ending =>
      rw [hentries] at h
      cases h
      exact Yaml.Script.stop_of_entries hentries
  · split at h
    · cases hfault : (Script.ofText text).fault <;> simp [hfault] at h
    · split at h <;> cases h
  · cases h
  · cases h

theorem Json.stop_of_readEntries {inner fuel : ℕ} {cs : List Char} {es : List (String × Tree)}
    {key : String} {stop : Stop}
    (h : Json.readEntries inner fuel cs = (es, .brokenValue key stop)) :
    ∃ way, stop.way.meant = .key key :: way := by
  induction fuel generalizing cs es with
  | zero => cases h
  | succ fuel ih =>
    unfold Json.readEntries at h
    split at h
    · cases h
    · split at h
      · cases h
        exact ⟨_, rfl⟩
      · split at h
        · cases h
        · cases h
        · next rest _ =>
          cases hrest : Json.readEntries inner fuel rest with
          | mk later ending =>
            rw [hrest] at h
            cases h
            exact ih hrest

theorem Json.stopsBelowKey (text : List Char) : (Json.read text).StopsBelowKey := by
  intro es key stop h
  unfold Json.read at h
  dsimp only at h
  split at h
  · split at h
    · cases h
    · cases hentries : Json.readEntries _ _ _ with
      | mk later ending =>
        rw [hentries] at h
        cases h
        exact Json.stop_of_readEntries hentries
  · cases h
  all_goals exact absurd h (Json.otherIf_ne_mapping _ _ _)

end TreeSchema.Document
