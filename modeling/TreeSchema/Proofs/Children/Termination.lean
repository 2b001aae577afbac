import Mathlib.Data.Fintype.Pigeonhole
import TreeSchema.Proofs.Planning

/-!
# When the search for children ends

The search for a path takes off one wrapper after another, with aliases replaced before each. It
ends on a type if this recursion is well founded there, that is if no type that is met stands inside
itself. The checks of a schema do not look for that.
-/

namespace TreeSchema

open Checked

/-! ### Types -/

namespace Schema

variable {s : Schema} {t x : TypeExpr}

/-- The search on `t` goes on with `inner`. -/
def Unfolds (s : Schema) (inner t : TypeExpr) : Prop := s.inner? t = some inner

/-- A type that is met on the way from `t` stands inside itself. -/
def Circular (s : Schema) (t : TypeExpr) : Prop :=
  ∃ j k x, s.within j t = some x ∧ s.within (k + 1) x = some x

theorem within_succ_of_unfolds (h : s.Unfolds x t) (k : ℕ) : s.within (k + 1) t = s.within k x := by
  rw [within, show s.inner? t = some x from h, Option.bind_some]

theorem Endless.unfolds (h : s.Endless t) : ∃ x, s.Unfolds x t ∧ s.Endless x := by
  obtain ⟨x, hx⟩ : ∃ x, s.Unfolds x t := by
    have hone := h 1
    cases hinner : s.inner? t with
    | none => simp [within, hinner] at hone
    | some x => exact ⟨x, hinner⟩
  exact ⟨x, hx, fun k => within_succ_of_unfolds hx k ▸ h (k + 1)⟩

/-- The search is well founded on a type unless there is always another wrapper. -/
theorem acc_unfolds_iff : Acc s.Unfolds t ↔ ¬ s.Endless t := by
  constructor
  · intro hacc
    induction hacc with
    | intro t _ ih =>
      intro hend
      obtain ⟨x, hx, hendx⟩ := hend.unfolds
      exact ih x hx hendx
  · intro h
    obtain ⟨k, hk⟩ : ∃ k, s.within k t = none := by simpa [Endless] using h
    clear h
    induction k generalizing t with
    | zero => cases hk
    | succ k ih =>
      refine ⟨t, fun x hx => ih ?_⟩
      rw [← within_succ_of_unfolds hx, hk]

/-- Finitely many types are met, so one that always has another wrapper comes round. -/
theorem endless_iff_circular : s.Endless t ↔ s.Circular t := by
  constructor
  · intro h
    choose met hmet using fun k => Option.ne_none_iff_exists'.mp (h (k + 1))
    let parts := {x // x ∈ t.parts ++ s.aliasParts}
    have hfinite : Finite parts := List.finite_toSet _
    obtain ⟨i, j, hij, heq⟩ := Finite.exists_ne_map_eq_of_infinite
      fun k => (⟨met k, mem_parts_of_within (hmet k)⟩ : parts)
    have hmeet {i j : ℕ} (hlt : i < j) (heq : met i = met j) : s.Circular t := by
      obtain ⟨d, rfl⟩ := Nat.exists_eq_add_of_lt hlt
      refine ⟨i + 1, d, met i, hmet i, ?_⟩
      have hj := hmet (i + d + 1)
      rw [show i + d + 1 + 1 = (i + 1) + (d + 1) by omega, within_add, hmet i, ← heq] at hj
      exact hj
    rcases Nat.lt_or_gt_of_ne hij with hlt | hlt
    · exact hmeet hlt (congrArg Subtype.val heq)
    · exact hmeet hlt (congrArg Subtype.val heq.symm)
  · rintro ⟨j, k, x, hx, hxx⟩
    have hagain : s.within (j + (k + 1)) t = some x := by rw [within_add, hx, Option.bind_some, hxx]
    exact endless_of_within_eq (show j < j + (k + 1) by omega) (by simp [hagain])
      (hx.trans hagain.symm)

end Schema

/-! ### Paths -/

namespace Access

variable {s : Schema} {e : Entry} {field : String} {t : TypeExpr} {k m : ℕ}

/-- Any two numbers of steps that are enough do the same. -/
theorem ofType_eq_of_within (hk : s.within k t = none) (hm : s.within m t = none) :
    ofType s e field k t = ofType s e field m t := by
  induction k generalizing t m with
  | zero => cases hk
  | succ k ih =>
    cases m with
    | zero => cases hm
    | succ m =>
      unfold ofType
      split
      · next w inner hw =>
        have hinner : s.Unfolds inner t := by simp [Schema.Unfolds, Schema.inner?, hw]
        rw [Schema.within_succ_of_unfolds hinner] at hk hm
        rw [ih hk hm]
      · rfl
      · rfl

theorem ofType_of_endless (h : s.Endless t) (k : ℕ) :
    ofType s e field k t = .error (.endless e.name field) := by
  induction k generalizing t with
  | zero => rfl
  | succ k ih =>
    obtain ⟨x, hx, hendx⟩ := h.unfolds
    unfold ofType
    unfold Schema.Unfolds Schema.inner? at hx
    split at hx
    · next w inner hw =>
      cases hx
      rw [hw]
      exact map_eq_error_iff.mpr (ih hendx)
    · cases hx

theorem find_eq_endless_iff :
    find s e field t = .error (.endless e.name field) ↔ ¬ Acc s.Unfolds t := by
  rw [Schema.acc_unfolds_iff, not_not]
  constructor
  · intro h
    rcases find_error h with ⟨reason, hf⟩ | ⟨-, hend⟩
    · cases hf
    · exact hend
  · intro h
    exact ofType_of_endless h _

theorem within_eq_none (h : ¬ s.Endless t) : s.within (t.depth + aliasDepth s + 1) t = none := by
  by_contra hne
  exact h (Schema.endless_of_within hne)

/-- What the search does with one type, when `next` goes on with the type inside. -/
def step (s : Schema) (e : Entry) (field : String) (next : TypeExpr → Except Error Access)
    (t : TypeExpr) : Except Error Access :=
  match s.resolveAlias t with
  | .wrap w inner => (next inner).map (w :: ·)
  | .position => .error (.badUse e.name field .childPosition)
  | .named name => checkNode s e field name

/-- The search is a recursion on the types that it meets, without a count of steps. -/
theorem find_eq_step (s : Schema) (e : Entry) (field : String) (t : TypeExpr) :
    find s e field t = step s e field (find s e field) t := by
  rw [find, ofType, step]
  cases hw : s.resolveAlias t with
  | position => rfl
  | named name => rfl
  | wrap w inner =>
    have hinner : s.Unfolds inner t := by simp [Schema.Unfolds, Schema.inner?, hw]
    have hrest : ofType s e field (t.depth + aliasDepth s) inner = find s e field inner := by
      by_cases hend : s.Endless inner
      · rw [find, ofType_of_endless hend, ofType_of_endless hend]
      · refine ofType_eq_of_within ?_ (within_eq_none hend)
        rw [← Schema.within_succ_of_unfolds hinner]
        refine within_eq_none fun hendt => ?_
        obtain ⟨x, hx, hendx⟩ := hendt.unfolds
        cases hinner.symm.trans hx
        exact hend hendx
    exact congrArg (Except.map (w :: ·)) hrest

end Access

/-! ### Plans -/

/-- The payload of a variant that is searched when children are payloads. -/
def Variant.walkedPayload (name : String) : Variant → Fields
  | wrap t => if t.isPosition then [] else [(name, t)]
  | _ => []

/-- The fields of a variant that are searched for references. -/
def Variant.walkedFields (refs : List ChildRef) : Variant → Fields
  | struct fields _ => ChildrenPlan.declared refs fields
  | _ => []

/-- The types of an entry that are searched for children, in order, with their fields or
variants: the fields of references that are not excluded, or the payloads of variants. -/
def Entry.walked (e : Entry) : Fields :=
  match e.shape, e.children with
  | .sum variants, some .variants => variants.flatMap fun v => v.2.walkedPayload v.1
  | .sum variants, some (.refs refs) => variants.flatMap fun v => v.2.walkedFields refs
  | .product fields, some (.refs refs) => ChildrenPlan.declared refs fields
  | _, _ => []

namespace ChildrenPlan

variable {s : Schema} {e : Entry} {f : Error}

/-- The search for the path of a field or payload. -/
def search (s : Schema) (e : Entry) (w : String × TypeExpr) : Except Error Access :=
  Access.find s e w.1 w.2

theorem payloadBody_eq_error_iff {name : String} {v : Variant} (hc : v.fields?.isNone = true) :
    payloadBody s e name v = .error f ↔
      collect (search s e) (v.walkedPayload name) = .error f := by
  cases v with
  | unit => simp [payloadBody, Variant.walkedPayload, collect]
  | struct fields hasId => simp [Variant.fields?] at hc
  | wrap t =>
    simp only [payloadBody, Variant.walkedPayload]
    split
    · simp [collect]
    · exact map_eq_error_iff.trans collect_singleton_eq_error_iff.symm

theorem refsBody_eq_error_iff {refs : List ChildRef} {v : Variant} :
    refsBody s e refs v = .error f ↔ collect (search s e) (v.walkedFields refs) = .error f := by
  cases v with
  | unit => simp [refsBody, Variant.walkedFields, collect]
  | wrap t => simp [refsBody, Variant.walkedFields, collect]
  | struct fields hasId =>
    exact map_eq_error_iff.trans (collect_eq_error_congr fun w _ _ => map_eq_error_iff)

theorem productWalk_eq_error_iff {fields : Fields} {child : ChildRef}
    (hc : e.checkProductChild fields child = .ok ()) : productWalk s e fields child = .error f ↔
      collect (search s e) ((fields.lookup child.field).map fun t => (child.field, t)).toList =
        .error f := by
  unfold productWalk
  cases hfield : fields.lookup child.field with
  | none =>
    have hsome := (then_eq_ok_iff.mp hc).2
    rw [hfield] at hsome
    cases hsome
  | some t => exact map_eq_error_iff.trans collect_singleton_eq_error_iff.symm

/-- After the checks, a plan fails as the search through the walked types does. -/
theorem ofEntry_eq_error_iff {imported : List String} (hc : s.check imported = .ok ())
    (he : e ∈ s.entries) : ofEntry s e = .error f ↔ collect (search s e) e.walked = .error f := by
  unfold ofEntry Entry.walked
  cases hspec : e.children with
  | none => cases e.shape <;> simp [collect]
  | some spec =>
    have hchecked := (then_eq_ok_iff.mp (Schema.checkChildren_of_check hc he hspec)).2
    cases hs : e.shape with
    | aliasOf target => cases spec <;> simp [hs] at hchecked
    | product fields =>
      cases spec with
      | variants => simp [hs] at hchecked
      | refs refs =>
        simp only [hs, forEach_eq_ok_iff] at hchecked
        change _ ↔ collect (search s e) (declared refs fields) = .error f
        rw [map_eq_error_iff, declared, List.filterMap_eq_flatMap_toList]
        refine collect_flatMap_eq_error_iff fun child hchild f => ?_
        exact productWalk_eq_error_iff (hchecked child (List.mem_filter.mp hchild).1)
    | sum variants =>
      cases spec with
      | variants =>
        simp only [hs, forEach_eq_ok_iff, require_eq_ok_iff] at hchecked
        rw [map_eq_error_iff]
        refine collect_flatMap_eq_error_iff fun v hv f => ?_
        exact map_eq_error_iff.trans (payloadBody_eq_error_iff (hchecked v hv))
      | refs refs =>
        rw [map_eq_error_iff]
        refine collect_flatMap_eq_error_iff fun v _ f => ?_
        exact map_eq_error_iff.trans refsBody_eq_error_iff

end ChildrenPlan

/-- The first field or payload of an entry without a path is `field`, and the search on its type is
not well founded. -/
def Entry.Stuck (s : Schema) (e : Entry) (field : String) : Prop :=
  ∃ done t rest, e.walked = done ++ (field, t) :: rest ∧
    (∀ w ∈ done, ∃ a, Access.find s e w.1 w.2 = .ok a) ∧ ¬ Acc s.Unfolds t

theorem ChildrenPlan.ofEntry_eq_endless_iff {s : Schema} {imported : List String} {e : Entry}
    (hc : s.check imported = .ok ()) (he : e ∈ s.entries) {name field : String} :
    ofEntry s e = .error (.endless name field) ↔ e.name = name ∧ e.Stuck s field := by
  rw [ofEntry_eq_error_iff hc he, collect_eq_error_iff]
  constructor
  · rintro ⟨done, ⟨f, t⟩, rest, hwalked, hdone, hf⟩
    obtain ⟨reason, hbad⟩ | ⟨hendless, -⟩ := Access.find_error hf
    · cases hbad
    · cases hendless
      exact ⟨rfl, done, t, rest, hwalked, hdone, Access.find_eq_endless_iff.mp hf⟩
  · rintro ⟨rfl, done, t, rest, hwalked, hdone, ht⟩
    exact ⟨done, (field, t), rest, hwalked, hdone, Access.find_eq_endless_iff.mpr ht⟩

/-! ### Generation -/

/-- The error stands for a search that has no end. -/
def Error.isEndless : Error → Bool
  | .endless _ _ => true
  | _ => false

namespace IdentityPlan

variable {s : Schema} {e : Entry} {f : Error}

theorem isEndless_checkDelegate {name : String} {t : TypeExpr}
    (h : checkDelegate s e name t = .error f) : f.isEndless = false := by
  unfold checkDelegate at h
  split at h
  · split at h
    · split at h <;> cases h <;> rfl
    · cases h; rfl
  · split at h <;> cases h
    rfl

theorem isEndless_action {name : String} {v : Variant} (h : action s e name v = .error f) :
    f.isEndless = false := by
  cases v with
  | unit => cases h
  | struct fields hasId => cases h
  | wrap t =>
    simp only [action] at h
    split at h
    · cases h
    · split at h
      · next hd => cases h; exact isEndless_checkDelegate hd
      · cases h

theorem isEndless_ofEntry (h : ofEntry s e = .error f) : f.isEndless = false := by
  unfold ofEntry at h
  split at h
  · split at h
    · next hcol =>
      cases h
      obtain ⟨v, -, hv⟩ := exists_of_collect_error hcol
      unfold arm at hv
      split at hv
      · next ha => cases hv; exact isEndless_action ha
      · cases hv
    · cases h
  · cases h

end IdentityPlan

theorem PositionPlan.isEndless_ofEntry {s : Schema} {p : Positions} {strict : Bool} {e : Entry}
    {f : Error} (h : ofEntry s p strict e = .error f) : f.isEndless = false := by
  unfold ofEntry at h
  split at h
  · cases h; rfl
  · split at h <;> cases h
    rfl
  · split at h
    · next hcol =>
      cases h
      obtain ⟨v, -, hv⟩ := exists_of_collect_error hcol
      unfold arm at hv
      split at hv <;> cases hv
      rfl
    · cases h

/-- The accessors of kinds do not search. -/
theorem KindPlan.isEndless_ofEntry {s : Schema} {p : Positions} {strict : Bool} {e : Entry}
    {f : Error} (h : ofEntry s p strict e = .error f) : f.isEndless = false := by
  rcases ofEntry_eq_error_iff.mp h with hi | ⟨-, hp⟩
  · unfold identityOf at hi
    split at hi
    · exact IdentityPlan.isEndless_ofEntry (map_eq_error_iff.mp hi)
    · cases hi
  · unfold positionOf at hp
    split at hp
    · exact PositionPlan.isEndless_ofEntry (map_eq_error_iff.mp hp)
    · cases hp

theorem ViewPlan.isEndless_checkAccessors {seen cases : List ViewCase} {f : Error}
    (h : checkAccessors seen cases = .error f) : f.isEndless = false := by
  induction cases generalizing seen with
  | nil => cases h
  | cons c rest ih =>
    unfold checkAccessors at h
    split at h
    · cases h; rfl
    · split at h
      · split at h
        · exact ih h
        · cases h; rfl
      · exact ih h

namespace Artifact

variable {s : Schema} {c : Config} {name field : String}

/-- All that comes before the search for children succeeds. -/
structure UpToChildren (s : Schema) (c : Config) : Prop where
  checked : s.check (importedNames s c) = .ok ()
  trait : checkPositionTrait s (importedNames s c) (Positions.analyze s) = .ok ()
  kinds : ∃ kinds, collect (KindPlan.ofEntry s (Positions.analyze s) c.strict) s.entries = .ok kinds
  reserved : ViewPlan.checkReserved s = .ok ()

theorem isEndless_checkPositionTrait {imported : List String} {p : Positions} {f : Error}
    (h : checkPositionTrait s imported p = .error f) : f.isEndless = false := by
  unfold checkPositionTrait at h
  split at h
  · cases h
  · obtain ⟨-, rfl⟩ := require_eq_error_iff.mp h
    rfl

/-- No step but the search for children goes on for ever. -/
theorem generate_eq_endless_iff_collect (hc : s.check (importedNames s c) = .ok ()) :
    generate s c = .error (.endless name field) ↔ UpToChildren s c ∧
      collect (ViewCase.ofEntry s (Positions.analyze s)) s.participating =
        .error (.endless name field) := by
  constructor
  · intro h
    obtain herr | ⟨_, hchecked, h⟩ := bind_eq_error_iff.mp (map_eq_error_iff.mp h)
    · rw [hc] at herr
      cases herr
    obtain herr | ⟨_, htrait, h⟩ := bind_eq_error_iff.mp h
    · cases isEndless_checkPositionTrait herr
    obtain herr | ⟨kinds, hkinds, h⟩ := bind_eq_error_iff.mp h
    · obtain ⟨e, -, he⟩ := exists_of_collect_error herr
      cases KindPlan.isEndless_ofEntry he
    obtain hview | ⟨_, -, h⟩ := bind_eq_error_iff.mp h
    · obtain herr | ⟨_, hreserved, h⟩ := bind_eq_error_iff.mp hview
      · obtain ⟨e, -, he⟩ := exists_of_forEach_error herr
        obtain ⟨-, hf⟩ := require_eq_error_iff.mp he
        cases hf
      obtain hcases | ⟨cases, -, h⟩ := bind_eq_error_iff.mp h
      · exact ⟨⟨hchecked, htrait, ⟨kinds, hkinds⟩, hreserved⟩, hcases⟩
      obtain herr | ⟨_, -, h⟩ := bind_eq_error_iff.mp h
      · obtain ⟨-, hf⟩ := require_eq_error_iff.mp herr
        cases hf
      obtain herr | ⟨_, -, h⟩ := bind_eq_error_iff.mp h
      · cases ViewPlan.isEndless_checkAccessors herr
      cases h
    · cases h
  · rintro ⟨⟨hchecked, htrait, ⟨kinds, hkinds⟩, hreserved⟩, hcases⟩
    have hview : ViewPlan.ofSchema s (Positions.analyze s) = .error (.endless name field) :=
      bind_eq_error_iff.mpr (.inr ⟨(), hreserved, bind_eq_error_iff.mpr (.inl hcases)⟩)
    refine map_eq_error_iff.mpr (bind_eq_error_iff.mpr (.inr ⟨(), hchecked, ?_⟩))
    refine bind_eq_error_iff.mpr (.inr ⟨(), htrait, ?_⟩)
    exact bind_eq_error_iff.mpr (.inr ⟨kinds, hkinds, bind_eq_error_iff.mpr (.inl hview)⟩)

/-- The first entry of the view whose children cannot be planned is stuck. -/
theorem generate_eq_endless_iff (hc : s.check (importedNames s c) = .ok ()) :
    generate s c = .error (.endless name field) ↔ UpToChildren s c ∧
      ∃ before e after, s.participating = before ++ e :: after ∧
        (∀ d ∈ before, ∃ plan, ChildrenPlan.ofEntry s d = .ok plan) ∧
        e.name = name ∧ e.Stuck s field := by
  have hcase {d : Entry} {f : Error} : ViewCase.ofEntry s (Positions.analyze s) d = .error f ↔
      ChildrenPlan.ofEntry s d = .error f := map_eq_error_iff
  have hentries {before after : List Entry} {e : Entry}
      (h : s.participating = before ++ e :: after) : e ∈ s.entries := by
    have hmem : e ∈ s.participating := by simp [h]
    exact (List.mem_filter.mp hmem).1
  rw [generate_eq_endless_iff_collect hc, collect_eq_error_iff]
  simp only [exists_ok_iff, ne_eq, hcase]
  refine and_congr_right fun _ => ?_
  constructor
  · rintro ⟨before, e, after, heq, hbefore, he⟩
    have hstuck := (ChildrenPlan.ofEntry_eq_endless_iff hc (hentries heq)).mp he
    exact ⟨before, e, after, heq, hbefore, hstuck⟩
  · rintro ⟨before, e, after, heq, hbefore, hstuck⟩
    exact ⟨before, e, after, heq, hbefore,
      (ChildrenPlan.ofEntry_eq_endless_iff hc (hentries heq)).mpr hstuck⟩

end Artifact

/-- On a schema that has passed its checks: the search for a path is a recursion, which is well
founded on a type exactly if no type that is met stands inside itself; the children of an entry are
planned, or are refused, unless the search is not well founded on the first type without a path; and
generation ends, unless an entry of the view is the first to be refused and is stuck like that. -/
theorem generation_ends_or_stuck {s : Schema} {imported : List String}
    (hc : s.check imported = .ok ()) :
    (∀ e field t, Access.find s e field t =
        Access.step s e field (Access.find s e field) t) ∧
    (∀ t, Acc s.Unfolds t ↔ ¬ s.Circular t) ∧
    (∀ e ∈ s.entries, ∀ field, ChildrenPlan.ofEntry s e = .error (.endless e.name field) ↔
      e.Stuck s field) ∧
    (∀ c name field, Artifact.importedNames s c = imported →
      (Artifact.generate s c = .error (.endless name field) ↔ Artifact.UpToChildren s c ∧
        ∃ before e after, s.participating = before ++ e :: after ∧
          (∀ d ∈ before, ∃ plan, ChildrenPlan.ofEntry s d = .ok plan) ∧
          e.name = name ∧ e.Stuck s field)) ∧
    ((∀ e ∈ s.participating, ∀ w ∈ e.walked, Acc s.Unfolds w.2) →
      ∀ c name field, Artifact.importedNames s c = imported →
        Artifact.generate s c ≠ .error (.endless name field)) := by
  refine ⟨Access.find_eq_step s, ?_, ?_, ?_, ?_⟩
  · intro t
    rw [Schema.acc_unfolds_iff, Schema.endless_iff_circular]
  · intro e he field
    rw [ChildrenPlan.ofEntry_eq_endless_iff hc he]
    exact and_iff_right rfl
  · rintro c name field rfl
    exact Artifact.generate_eq_endless_iff hc
  · rintro hacc c name field rfl h
    obtain ⟨-, before, e, after, heq, -, -, done, t, rest, hwalked, -, ht⟩ :=
      (Artifact.generate_eq_endless_iff hc).mp h
    exact ht (hacc e (by simp [heq]) (field, t) (by simp [hwalked]))

namespace Loop

/-! An alias that stands inside itself, and a product with a child of that type. -/

def list : Entry :=
  { name := "L", displayName := "L", shape := .aliasOf (.wrap .sequence (.named "L")) }

def holder : Entry :=
  { name := "A", displayName := "A", shape := .product [("x", .named "L")],
    children := some (.refs [⟨"x", false, .required⟩]) }

def schema : Schema := ⟨[list, holder], by decide⟩

def config : Config := { imports := ["crate::NodeId", "crate::HasId", "pxp_span::Span"] }

theorem circular_list : schema.Circular (.named "L") := ⟨0, 0, .named "L", rfl, rfl⟩

/-- The checks pass, but the search for the only child is not well founded, and generation does not
end. -/
theorem holder_not_wellFounded : schema.check (Artifact.importedNames schema config) = .ok () ∧
    holder ∈ schema.participating ∧ ("x", .named "L") ∈ holder.walked ∧
    ¬ Acc schema.Unfolds (.named "L") ∧
    Artifact.generate schema config = .error (.endless "A" "x") := by
  have hacc : ¬ Acc schema.Unfolds (.named "L") := by
    rw [Schema.acc_unfolds_iff, not_not, Schema.endless_iff_circular]
    exact circular_list
  have hplan : (Artifact.plan schema config).map (fun _ => ()) = .error (.endless "A" "x") := by
    decide +kernel
  exact ⟨by decide +kernel, by decide, by decide, hacc,
    map_eq_error_iff.mpr (map_eq_error_iff.mp hplan)⟩

theorem holder_stuck : holder.Stuck schema "x" ∧
    ChildrenPlan.ofEntry schema holder = .error (.endless "A" "x") := by
  have hc : schema.check (Artifact.importedNames schema config) = .ok () := by decide +kernel
  obtain ⟨-, hwf, hplan, -, -⟩ := generation_ends_or_stuck hc
  have hstuck : holder.Stuck schema "x" := by
    refine ⟨[], .named "L", [], rfl, by simp, ?_⟩
    rw [hwf, not_not]
    exact circular_list
  exact ⟨hstuck, (hplan holder (by decide) "x").mpr hstuck⟩

end Loop

end TreeSchema
