import Mathlib.Data.List.Permutation
import TreeSchema.Artifact
import TreeSchema.Proofs.Accessors
import TreeSchema.Proofs.Schema.GateChecks

/-!
# The order of the entries

Two schemas with the same entries in different orders have the same positions and the same plans
for each entry, and one has an artifact if the other has. The artifacts are put together from the
same pieces, in the order of the entries.
-/

namespace TreeSchema

namespace Checked

variable {ε α β : Type} {f g : α → Except ε β} {l : List α} {bs : List β}

theorem map_mono {γ : Type} {x y : Except ε α} {r : α → γ} {c : γ}
    (hxy : ∀ a, x = .ok a → y = .ok a) (h : x.map r = .ok c) : y.map r = .ok c := by
  obtain ⟨a, ha, hr⟩ := map_eq_ok_iff.mp h
  exact map_eq_ok_iff.mpr ⟨a, hxy a ha, hr⟩

theorem collect_mono (hfg : ∀ a b, f a = .ok b → g a = .ok b) (h : collect f l = .ok bs) :
    collect g l = .ok bs := by
  rw [collect_eq_ok_iff] at h ⊢
  exact h.imp hfg

/-- Results can be collected if there is one for each item. -/
theorem exists_collect_iff : (∃ bs, collect f l = .ok bs) ↔ ∀ a ∈ l, ∃ b, f a = .ok b := by
  constructor
  · rintro ⟨bs, h⟩ a ha
    obtain ⟨b, -, hb⟩ := exists_mem_collect h ha
    exact ⟨b, hb⟩
  · intro h
    cases hc : collect f l with
    | ok bs => exact ⟨bs, rfl⟩
    | error e =>
      obtain ⟨a, ha, hae⟩ := exists_of_collect_error hc
      obtain ⟨b, hb⟩ := h a ha
      rw [hae] at hb
      cases hb

theorem eq_map_of_collect {r : α → β} (hr : ∀ a b, f a = .ok b → r a = b)
    (h : collect f l = .ok bs) : bs = l.map r := by
  have hf := collect_eq_ok_iff.mp h
  clear h
  induction hf with
  | nil => rfl
  | cons hab _ ih => rw [List.map_cons, hr _ _ hab, ih]

end Checked

open Checked

namespace Schema

variable {s₁ s₂ : Schema}

theorem get?_perm (h : s₁.entries.Perm s₂.entries) (n : String) : s₁.get? n = s₂.get? n := by
  apply Option.ext
  intro e
  rw [get?_eq_some_iff, get?_eq_some_iff, h.mem_iff]

theorem resolve_perm (h : s₁.entries.Perm s₂.entries) (n : String) :
    (s₁.resolve n).Perm (s₂.resolve n) := by
  unfold resolve
  rw [get?_perm h n]
  cases s₂.get? n with
  | none => exact h.filter _
  | some e => exact .refl _

theorem isEmpty_resolve_perm (h : s₁.entries.Perm s₂.entries) (n : String) :
    (s₁.resolve n).isEmpty = (s₂.resolve n).isEmpty := (resolve_perm h n).isEmpty_eq

theorem renderType_perm (h : s₁.entries.Perm s₂.entries) (t : TypeExpr) :
    s₁.renderType t = s₂.renderType t := by
  have hd : s₁.displayNameOf = s₂.displayNameOf := by
    funext n
    unfold displayNameOf
    rw [get?_perm h n]
  unfold renderType
  rw [hd]

theorem participating_perm (h : s₁.entries.Perm s₂.entries) :
    s₁.participating.Perm s₂.participating := h.filter _

/-- A name that refers to one entry refers to the same one in any order. -/
theorem aliasTarget?_perm (h : s₁.entries.Perm s₂.entries) (t : TypeExpr) :
    s₁.aliasTarget? t = s₂.aliasTarget? t := by
  cases t with
  | position => rfl
  | wrap w inner => rfl
  | named n =>
    have hp := resolve_perm h n
    have hlen := hp.length_eq
    simp only [aliasTarget?]
    match h₁ : s₁.resolve n, h₂ : s₂.resolve n with
    | [], [] => rfl
    | [a], [b] =>
      rw [h₁, h₂] at hp
      rw [List.perm_singleton.mp hp]
    | _ :: _ :: _, _ :: _ :: _ => rfl
    | [], _ :: _ => simp [h₁, h₂] at hlen
    | _ :: _, [] => simp [h₁, h₂] at hlen
    | [_], _ :: _ :: _ => simp [h₁, h₂] at hlen
    | _ :: _ :: _, [_] => simp [h₁, h₂] at hlen

theorem followAlias_perm (h : s₁.entries.Perm s₂.entries) (k : ℕ) (t : TypeExpr) :
    s₁.followAlias k t = s₂.followAlias k t := by
  induction k generalizing t with
  | zero => rfl
  | succ k ih =>
    unfold followAlias
    rw [aliasTarget?_perm h t]
    cases s₂.aliasTarget? t with
    | none => rfl
    | some target => exact ih target

theorem resolveAlias_perm (h : s₁.entries.Perm s₂.entries) (t : TypeExpr) :
    s₁.resolveAlias t = s₂.resolveAlias t := by
  unfold resolveAlias
  rw [h.length_eq, followAlias_perm h]

theorem wrappedKinds_perm (h : s₁.entries.Perm s₂.entries) (t : TypeExpr) :
    (s₁.wrappedKinds t).Perm (s₂.wrappedKinds t) := by
  unfold wrappedKinds
  rw [resolveAlias_perm h]
  cases (s₂.resolveAlias t.unboxed).unboxed with
  | position => exact .refl _
  | wrap w inner => exact .refl _
  | named n => exact (resolve_perm h n).filter _

end Schema

/-! ### Plans -/

namespace Positions

variable {s₁ s₂ : Schema}

/-- The kinds that a derivation asks for are the same in any order. -/
theorem positioned_perm (h : s₁.entries.Perm s₂.entries) {e : Entry} (hp : Positioned s₁ e) :
    Positioned s₂ e := by
  induction hp with
  | forced kind forced => exact .forced kind forced
  | field shape field => exact .field shape field
  | payload shape counted variant => exact .payload shape counted variant
  | variantField shape counted variant field => exact .variantField shape counted variant field
  | wraps shape counted variant refers kinds ih =>
    have hw := Schema.wrappedKinds_perm h
    refine .wraps shape counted variant (fun hnil => refers ?_) fun k hk =>
      ih k ((hw _).mem_iff.mpr hk)
    exact (hnil ▸ hw _).eq_nil

theorem contains_analyze_of_perm (h : s₁.entries.Perm s₂.entries) {n : String}
    (hn : (analyze s₁).contains n = true) : (analyze s₂).contains n = true := by
  obtain ⟨e, he, rfl, hp⟩ := (grounded_analyze s₁).derived n (contains_iff.mp hn)
  exact contains_iff.mpr ((mem_analyze_iff (h.mem_iff.mp he)).mpr (positioned_perm h hp))

theorem contains_analyze_perm (h : s₁.entries.Perm s₂.entries) (n : String) :
    (analyze s₁).contains n = (analyze s₂).contains n :=
  Bool.eq_iff_iff.mpr ⟨contains_analyze_of_perm h, contains_analyze_of_perm h.symm⟩

theorem wrapsPositioned_perm (h : s₁.entries.Perm s₂.entries) (t : TypeExpr) :
    (analyze s₁).wrapsPositioned s₁ t = (analyze s₂).wrapsPositioned s₂ t := by
  have hw := Schema.wrappedKinds_perm h t
  unfold wrapsPositioned
  rw [hw.isEmpty_eq, hw.all_eq]
  simp only [contains_analyze_perm h]

end Positions

section Plans

variable {s₁ s₂ : Schema} {strict : Bool} {e : Entry}

theorem PositionPlan.ofEntry_perm (h : s₁.entries.Perm s₂.entries) :
    ofEntry s₁ (Positions.analyze s₁) strict e = ofEntry s₂ (Positions.analyze s₂) strict e := by
  have haction : action s₁ (Positions.analyze s₁) = action s₂ (Positions.analyze s₂) := by
    funext v
    cases v with
    | unit => rfl
    | wrap t => simp only [action, Positions.wrapsPositioned_perm h]
    | struct fields hasId => rfl
  have harm : arm s₁ (Positions.analyze s₁) strict e = arm s₂ (Positions.analyze s₂) strict e := by
    funext v
    unfold arm
    rw [haction]
  unfold ofEntry
  rw [harm]

theorem IdentityPlan.checkDelegate_eq_ok_iff {s : Schema} {name : String} {t : TypeExpr} :
    checkDelegate s e name t = .ok () ↔
      s.wrappedKinds t ≠ [] ∧ ∀ k ∈ s.wrappedKinds t, k.participates = true := by
  refine ⟨checkDelegate_ok, fun ⟨hne, hall⟩ => ?_⟩
  have hfind : (s.wrappedKinds t).find? (fun target => !target.participates) = none := by
    simpa using hall
  unfold checkDelegate
  split
  · next hnil => exact absurd hnil hne
  · rw [hfind]

theorem IdentityPlan.ofEntry_perm (h : s₁.entries.Perm s₂.entries) {i : IdentityPlan}
    (hi : ofEntry s₁ e = .ok i) : ofEntry s₂ e = .ok i := by
  have hdelegate (name : String) (t : TypeExpr) (hd : checkDelegate s₁ e name t = .ok ()) :
      checkDelegate s₂ e name t = .ok () := by
    have hw := Schema.wrappedKinds_perm h t
    rw [checkDelegate_eq_ok_iff] at hd ⊢
    exact ⟨fun hnil => hd.1 (hnil ▸ hw).eq_nil, fun k hk => hd.2 k (hw.mem_iff.mpr hk)⟩
  have hact (name : String) (v : Variant) (a : IdentityAction)
      (ha : action s₁ e name v = .ok a) : action s₂ e name v = .ok a := by
    cases v with
    | unit => exact ha
    | struct fields hasId => exact ha
    | wrap t =>
      simp only [action] at ha ⊢
      split at ha
      · next hpos => rwa [if_pos hpos]
      · next hpos =>
        rw [if_neg hpos]
        split at ha
        · cases ha
        · next hd => rwa [hdelegate name t hd]
  have harm (v : String × Variant) (a : Arm IdentityAction) (ha : arm s₁ e v = .ok a) :
      arm s₂ e v = .ok a := by
    unfold arm at ha ⊢
    split at ha
    · cases ha
    · next b hb => rwa [hact v.1 v.2 b hb]
  unfold ofEntry at hi ⊢
  split at hi
  · split at hi
    · cases hi
    · next arms hcol =>
      rw [collect_mono harm hcol]
      exact hi
  · exact hi

/-- The accessors of an entry are the same in any order. -/
theorem KindPlan.ofEntry_perm (h : s₁.entries.Perm s₂.entries) {k : KindPlan}
    (hk : ofEntry s₁ (Positions.analyze s₁) strict e = .ok k) :
    ofEntry s₂ (Positions.analyze s₂) strict e = .ok k := by
  rw [ofEntry_eq_ok_iff] at hk ⊢
  obtain ⟨hentry, hi, hp⟩ := hk
  refine ⟨hentry, ?_, ?_⟩
  · unfold identityOf at hi ⊢
    split at hi
    · next hpart =>
      rw [if_pos hpart]
      exact map_mono (fun i => IdentityPlan.ofEntry_perm h) hi
    · next hpart => rwa [if_neg hpart]
  · unfold positionOf at hp ⊢
    rwa [← Positions.contains_analyze_perm h, ← PositionPlan.ofEntry_perm h]

theorem KindPlan.code_perm (h : s₁.entries.Perm s₂.entries) (k : KindPlan) :
    k.code s₁ = k.code s₂ := by
  have ht : s₁.renderType = s₂.renderType := funext (Schema.renderType_perm h)
  have hfield : Entry.fieldText s₁ = Entry.fieldText s₂ := by
    funext visibility f
    unfold Entry.fieldText
    rw [ht]
  have hvariant : Entry.variantCode s₁ = Entry.variantCode s₂ := by
    funext v
    unfold Entry.variantCode
    rw [ht, hfield]
  have hdef : k.entry.definition s₁ = k.entry.definition s₂ := by
    unfold Entry.definition
    rw [ht, hfield, hvariant]
  unfold code
  rw [hdef]

theorem Access.find_perm (h : s₁.entries.Perm s₂.entries) {field : String} {t : TypeExpr}
    {a : Access} (ha : find s₁ e field t = .ok a) : find s₂ e field t = .ok a := by
  have hdepth : aliasDepth s₁ = aliasDepth s₂ := (h.map _).sum_nat
  have hstep (k : ℕ) (t : TypeExpr) (a : Access) (ha : ofType s₁ e field k t = .ok a) :
      ofType s₂ e field k t = .ok a := by
    induction k generalizing t a with
    | zero => cases ha
    | succ k ih =>
      unfold ofType at ha ⊢
      rw [← Schema.resolveAlias_perm h]
      split at ha
      · next w inner hw =>
        exact map_mono (ih inner) ha
      · cases ha
      · next n hn =>
        have hr := Schema.resolve_perm h n
        rw [checkNode_eq_ok_iff] at ha ⊢
        refine ⟨ha.1, fun hnil => ha.2.1 (hnil ▸ hr).eq_nil, fun target ht => ?_⟩
        exact ha.2.2 target (hr.mem_iff.mpr ht)
  unfold find at ha ⊢
  rw [← hdepth]
  exact hstep _ t a ha

/-- The children of an entry are the same in any order. -/
theorem ChildrenPlan.ofEntry_perm (h : s₁.entries.Perm s₂.entries) {plan : ChildrenPlan}
    (hp : ofEntry s₁ e = .ok plan) : ofEntry s₂ e = .ok plan := by
  have hpayload (v : String × Variant) (arm : VariantWalk)
      (ha : variantArm (payloadBody s₁ e v.1) v = .ok arm) :
      variantArm (payloadBody s₂ e v.1) v = .ok arm := by
    refine map_mono (fun body hbody => ?_) ha
    cases hv : v.2 with
    | unit => rwa [hv] at hbody
    | struct fields hasId => rw [hv] at hbody; cases hbody
    | wrap t =>
      simp only [hv, payloadBody] at hbody ⊢
      split at hbody
      · next hpos => rwa [if_pos hpos]
      · next hpos =>
        rw [if_neg hpos]
        exact map_mono (fun a => Access.find_perm h) hbody
  have hrefs (refs : List ChildRef) (v : String × Variant) (arm : VariantWalk)
      (ha : variantArm (refsBody s₁ e refs) v = .ok arm) :
      variantArm (refsBody s₂ e refs) v = .ok arm := by
    refine map_mono (fun body hbody => ?_) ha
    cases hv : v.2 with
    | unit => rwa [hv] at hbody
    | wrap t => rwa [hv] at hbody
    | struct fields hasId =>
      rw [hv] at hbody
      refine map_mono (fun walks => collect_mono fun f w => ?_) hbody
      exact map_mono fun a => Access.find_perm h
  have hproduct (fields : Fields) (child : ChildRef) (w : Walk)
      (hw : productWalk s₁ e fields child = .ok w) : productWalk s₂ e fields child = .ok w := by
    unfold productWalk at hw ⊢
    split at hw
    · cases hw
    · exact map_mono (fun a => Access.find_perm h) hw
  unfold ofEntry at hp ⊢
  split at hp
  · exact hp
  · split at hp
    · exact map_mono (fun arms => collect_mono hpayload) hp
    · next refs _ _ => exact map_mono (fun arms => collect_mono (hrefs refs)) hp
    · next fields refs _ _ => exact map_mono (fun walks => collect_mono (hproduct fields)) hp
    · cases hp
    · cases hp

theorem ViewCase.ofEntry_perm (h : s₁.entries.Perm s₂.entries) {c : ViewCase}
    (hc : ofEntry s₁ (Positions.analyze s₁) e = .ok c) :
    ofEntry s₂ (Positions.analyze s₂) e = .ok c := by
  unfold ofEntry at hc ⊢
  rw [← Positions.contains_analyze_perm h]
  exact map_mono (fun children => ChildrenPlan.ofEntry_perm h) hc

end Plans

/-! ### Checks -/

namespace Schema

variable {s₁ s₂ : Schema} {imported : List String} {e : Entry}

/-- Opposite gates are opposite both ways. -/
theorem mayShare_of_perm {es₁ es₂ : List Entry} (h : es₁.Perm es₂) (hs : mayShare es₁ = true) :
    mayShare es₂ = true := by
  rw [mayShare_iff] at hs ⊢
  obtain ⟨hne, hpair⟩ := hs
  refine ⟨fun hnil => hne (h.trans (List.Perm.of_eq hnil)).eq_nil, ?_⟩
  exact (h.pairwise_iff fun hab => Std.Symm.symm _ _ hab).mp hpair

theorem checkNames_of_perm (h : s₁.entries.Perm s₂.entries) (hc : s₁.checkNames = .ok ()) :
    s₂.checkNames = .ok () := by
  rw [checkNames_eq_ok_iff] at hc ⊢
  intro e he
  exact mayShare_of_perm (h.filter _) (hc e (h.mem_iff.mpr he))

theorem isKnown_perm (h : s₁.entries.Perm s₂.entries) (n : String) :
    s₁.isKnown imported n = s₂.isKnown imported n := by
  unfold isKnown
  rw [isEmpty_resolve_perm h]

theorem checkGate_of_perm (h : s₁.entries.Perm s₂.entries) {n : String}
    (hc : s₁.checkGate e n = .ok ()) : s₂.checkGate e n = .ok () := by
  have hr := resolve_perm h n
  have hnil : s₁.resolve n = [] ↔ s₂.resolve n = [] :=
    ⟨fun h => (h ▸ hr).symm.eq_nil, fun h => (h ▸ hr).eq_nil⟩
  simpa only [checkGate_eq_ok_iff, hnil, hr.mem_iff] using hc

theorem checkEntry_of_perm (h : s₁.entries.Perm s₂.entries)
    (hc : s₁.checkEntry imported e = .ok ()) : s₂.checkEntry imported e = .ok () := by
  obtain ⟨href, hrest⟩ := then_eq_ok_iff.mp hc
  refine then_eq_ok_iff.mpr ⟨?_, hrest⟩
  rw [checkReferences_eq_ok_iff] at href ⊢
  intro n hn
  obtain ⟨hknown, hgate⟩ := href n hn
  exact ⟨by rwa [← isKnown_perm h], checkGate_of_perm h hgate⟩

theorem checkRequired_eq_ok_iff {s : Schema} : s.checkRequired imported = .ok () ↔
    s.participating = [] ∨ ∀ r ∈ requiredNames, s.isKnown imported r.2 = true := by
  unfold checkRequired
  cases s.participating with
  | nil => simp
  | cons first rest => simp [forEach_eq_ok_iff, require_eq_ok_iff]

theorem checkRequired_of_perm (h : s₁.entries.Perm s₂.entries)
    (hc : s₁.checkRequired imported = .ok ()) : s₂.checkRequired imported = .ok () := by
  rw [checkRequired_eq_ok_iff] at hc ⊢
  rcases hc with hnil | hknown
  · exact .inl (hnil ▸ participating_perm h).symm.eq_nil
  · exact .inr fun r hr => by rw [← isKnown_perm h]; exact hknown r hr

/-- A schema passes its checks in any order of its entries. -/
theorem check_of_perm (h : s₁.entries.Perm s₂.entries) (hc : s₁.check imported = .ok ()) :
    s₂.check imported = .ok () := by
  obtain ⟨hnames, hentries, hrequired⟩ := check_eq_ok_iff.mp hc
  refine check_eq_ok_iff.mpr ⟨checkNames_of_perm h hnames, ?_, checkRequired_of_perm h hrequired⟩
  intro e he
  exact checkEntry_of_perm h (hentries e (h.mem_iff.mpr he))

end Schema

/-! ### The view -/

namespace ViewPlan

variable {s₁ s₂ : Schema} {view : ViewPlan}

/-- Kinds with one accessor have one name. -/
def Consistent (cases : List ViewCase) : Prop :=
  ∀ c ∈ cases, ∀ d ∈ cases, c.accessor = d.accessor → c.entry.displayName = d.entry.displayName

/-- The check of accessors in terms of the cases and not of their order. -/
theorem checkAccessors_eq_ok_iff {seen cases : List ViewCase} (hseen : Consistent seen) :
    checkAccessors seen cases = .ok () ↔
      (∀ c ∈ cases, c.asMethod ∉ ownMethods) ∧ Consistent (seen ++ cases) := by
  induction cases generalizing seen with
  | nil => simp [checkAccessors, hseen]
  | cons c rest ih =>
    have happend : seen ++ c :: rest = seen ++ [c] ++ rest := by simp
    have hnext (hc : c.asMethod ∉ ownMethods) (hs : Consistent (seen ++ [c])) :
        checkAccessors (seen ++ [c]) rest = .ok () ↔
          (∀ d ∈ c :: rest, d.asMethod ∉ ownMethods) ∧ Consistent (seen ++ c :: rest) := by
      rw [ih hs, happend]
      simp [hc]
    have hextend (hd : ∀ d ∈ seen, d.accessor = c.accessor →
        d.entry.displayName = c.entry.displayName) : Consistent (seen ++ [c]) := by
      intro x hx y hy hxy
      simp only [List.mem_append, List.mem_singleton] at hx hy
      rcases hx with hx | rfl
      · rcases hy with hy | rfl
        · exact hseen x hx y hy hxy
        · exact hd x hx hxy
      · rcases hy with hy | rfl
        · exact (hd y hy hxy.symm).symm
        · rfl
    unfold checkAccessors
    split
    · next hown =>
      have hmem : c.asMethod ∈ ownMethods := List.contains_iff_mem.mp hown
      simp only [reduceCtorEq, false_iff]
      intro hall
      exact hall.1 c (List.mem_cons_self ..) hmem
    · next hown =>
      have hmem : c.asMethod ∉ ownMethods := fun hm => hown (List.contains_iff_mem.mpr hm)
      split
      · next d hd =>
        have hdm := List.mem_of_find?_eq_some hd
        have hda : d.accessor = c.accessor := by simpa using List.find?_some hd
        split
        · next hname =>
          refine hnext hmem (hextend fun x hx hxc => ?_)
          exact (hseen x hx d hdm (hxc.trans hda.symm)).trans hname
        · next hname =>
          simp only [reduceCtorEq, false_iff]
          intro hall
          exact hname (hall.2 d (by simp [hdm]) c (by simp) hda)
      · next hnone =>
        refine hnext hmem (hextend fun x hx hxc => ?_)
        exact absurd hxc (by simpa using List.find?_eq_none.mp hnone x hx)

theorem checkAccessors_of_perm {cases₁ cases₂ : List ViewCase} (h : cases₁.Perm cases₂)
    (hc : checkAccessors [] cases₁ = .ok ()) : checkAccessors [] cases₂ = .ok () := by
  have hnil : Consistent [] := by simp [Consistent]
  rw [checkAccessors_eq_ok_iff hnil] at hc ⊢
  simpa only [Consistent, List.nil_append, h.mem_iff] using hc

theorem checkReserved_of_perm (h : s₁.entries.Perm s₂.entries) (hc : checkReserved s₁ = .ok ()) :
    checkReserved s₂ = .ok () := by
  simpa only [checkReserved, forEach_eq_ok_iff, h.mem_iff] using hc

/-- The case of an entry; the fallback is never written. -/
def caseOf (s : Schema) (e : Entry) : ViewCase :=
  (ViewCase.ofEntry s (Positions.analyze s) e).toOption.getD ⟨e, "", false, .none⟩

theorem caseOf_eq {s : Schema} {e : Entry} {c : ViewCase}
    (h : ViewCase.ofEntry s (Positions.analyze s) e = .ok c) : caseOf s e = c := by
  simp [caseOf, h, Except.toOption]

/-- The view of a schema in another order has the same cases in that order. -/
theorem ofSchema_perm (h : s₁.entries.Perm s₂.entries)
    (hv : ofSchema s₁ (Positions.analyze s₁) = .ok view) :
    view.cases = s₁.participating.map (caseOf s₁) ∧
      ofSchema s₂ (Positions.analyze s₂) = .ok ⟨s₂.participating.map (caseOf s₁)⟩ := by
  obtain ⟨hres, hcol, hne, hacc⟩ := ofSchema_eq_ok_iff.mp hv
  have hpart := Schema.participating_perm h
  have hcases : view.cases = s₁.participating.map (caseOf s₁) :=
    eq_map_of_collect (fun e c => caseOf_eq) hcol
  have hperm : view.cases.Perm (s₂.participating.map (caseOf s₁)) := by
    rw [hcases]
    exact hpart.map _
  have hcol₂ : collect (ViewCase.ofEntry s₂ (Positions.analyze s₂)) s₂.participating =
      .ok (s₂.participating.map (caseOf s₁)) := by
    have hall := exists_collect_iff.mp ⟨_, hcol⟩
    obtain ⟨cs, hcs⟩ : ∃ cs, collect (ViewCase.ofEntry s₁ (Positions.analyze s₁))
        s₂.participating = .ok cs :=
      exists_collect_iff.mpr fun e he => hall e (hpart.mem_iff.mpr he)
    rw [← eq_map_of_collect (fun e c => caseOf_eq) hcs]
    exact collect_mono (fun e c => ViewCase.ofEntry_perm h) hcs
  refine ⟨hcases, ofSchema_eq_ok_iff.mpr ⟨checkReserved_of_perm h hres, hcol₂, ?_, ?_⟩⟩
  · intro hnil
    rw [show s₂.participating.map (caseOf s₁) = [] from hnil] at hperm
    exact hne hperm.eq_nil
  · exact checkAccessors_of_perm hperm hacc

end ViewPlan

/-! ### The artifact -/

namespace Artifact

variable {s₁ s₂ : Schema} {c : Config}

theorem plan_eq_ok_iff {s : Schema} {p : Plan} : plan s c = .ok p ↔
    s.check (importedNames s c) = .ok () ∧
    checkPositionTrait s (importedNames s c) (Positions.analyze s) = .ok () ∧
    collect (KindPlan.ofEntry s (Positions.analyze s) c.strict) s.entries = .ok p.kinds ∧
    ViewPlan.ofSchema s (Positions.analyze s) = .ok p.view ∧ p.imports = imports s c := by
  obtain ⟨imported, kinds, view⟩ := p
  constructor
  · intro h
    obtain ⟨hcheck, h⟩ := then_eq_ok_iff.mp h
    obtain ⟨htrait, h⟩ := then_eq_ok_iff.mp h
    obtain ⟨ks, hkinds, h⟩ := bind_eq_ok_iff.mp h
    obtain ⟨v, hview, heq⟩ := bind_eq_ok_iff.mp h
    cases heq
    exact ⟨hcheck, htrait, hkinds, hview, rfl⟩
  · rintro ⟨hcheck, htrait, hkinds, hview, rfl⟩
    refine then_eq_ok_iff.mpr ⟨hcheck, then_eq_ok_iff.mpr ⟨htrait, ?_⟩⟩
    exact bind_eq_ok_iff.mpr ⟨kinds, hkinds, bind_eq_ok_iff.mpr ⟨view, hview, rfl⟩⟩

theorem imports_perm (h : s₁.entries.Perm s₂.entries) : imports s₁ c = imports s₂ c := by
  unfold imports
  simp only [Schema.isEmpty_resolve_perm h]

theorem checkPositionTrait_of_perm (h : s₁.entries.Perm s₂.entries) {imported : List String}
    (hc : checkPositionTrait s₁ imported (Positions.analyze s₁) = .ok ()) :
    checkPositionTrait s₂ imported (Positions.analyze s₂) = .ok () := by
  unfold checkPositionTrait at hc ⊢
  split
  · rfl
  · next e he =>
    -- Some entry has a position, so the first order asked for the trait as well.
    have hm := h.mem_iff.mpr (List.mem_of_find?_eq_some he)
    have hpos : (Positions.analyze s₂).contains e.name = true := by
      simpa using List.find?_some he
    rw [← Positions.contains_analyze_perm h] at hpos
    split at hc
    · next hnone => exact absurd hpos (List.find?_eq_none.mp hnone e hm)
    · rw [require_eq_ok_iff] at hc ⊢
      rwa [← Schema.isEmpty_resolve_perm h]

/-- The accessors of an entry; the fallback is never written. -/
def kindOf (s : Schema) (strict : Bool) (e : Entry) : KindPlan :=
  (KindPlan.ofEntry s (Positions.analyze s) strict e).toOption.getD ⟨e, none, none⟩

theorem kindOf_eq {s : Schema} {strict : Bool} {e : Entry} {k : KindPlan}
    (h : KindPlan.ofEntry s (Positions.analyze s) strict e = .ok k) : kindOf s strict e = k := by
  simp [kindOf, h, Except.toOption]

/-- The plans of a schema in another order are the same plans in that order. -/
theorem plan_perm (h : s₁.entries.Perm s₂.entries) {p : Plan} (hp : plan s₁ c = .ok p) :
    p.kinds = s₁.entries.map (kindOf s₁ c.strict) ∧
    p.view.cases = s₁.participating.map (ViewPlan.caseOf s₁) ∧
    plan s₂ c = .ok ⟨p.imports, s₂.entries.map (kindOf s₁ c.strict),
      ⟨s₂.participating.map (ViewPlan.caseOf s₁)⟩⟩ := by
  obtain ⟨hcheck, htrait, hkinds, hview, himports⟩ := plan_eq_ok_iff.mp hp
  obtain ⟨hcases, hview₂⟩ := ViewPlan.ofSchema_perm h hview
  have hnames : importedNames s₂ c = importedNames s₁ c := by
    unfold importedNames
    rw [imports_perm h]
  have hkinds₂ : collect (KindPlan.ofEntry s₂ (Positions.analyze s₂) c.strict) s₂.entries =
      .ok (s₂.entries.map (kindOf s₁ c.strict)) := by
    have hall := exists_collect_iff.mp ⟨_, hkinds⟩
    obtain ⟨ks, hks⟩ : ∃ ks, collect (KindPlan.ofEntry s₁ (Positions.analyze s₁) c.strict)
        s₂.entries = .ok ks :=
      exists_collect_iff.mpr fun e he => hall e (h.mem_iff.mpr he)
    rw [← eq_map_of_collect (fun e k => kindOf_eq) hks]
    exact collect_mono (fun e k => KindPlan.ofEntry_perm h) hks
  refine ⟨eq_map_of_collect (fun e k => kindOf_eq) hkinds, hcases, plan_eq_ok_iff.mpr ?_⟩
  refine ⟨?_, ?_, hkinds₂, hview₂, ?_⟩
  · rw [hnames]
    exact Schema.check_of_perm h hcheck
  · rw [hnames]
    exact checkPositionTrait_of_perm h htrait
  · rw [himports, imports_perm h]

theorem generate_of_perm (h : s₁.entries.Perm s₂.entries)
    (hg : ∃ text, generate s₁ c = .ok text) : ∃ text, generate s₂ c = .ok text := by
  obtain ⟨text, ht⟩ := hg
  obtain ⟨p, hp, -⟩ := map_eq_ok_iff.mp ht
  exact ⟨_, map_eq_ok_iff.mpr ⟨_, (plan_perm h hp).2.2, rfl⟩⟩

/-- An artifact that is put together from the code for each entry, in the order of the entries. -/
def assemble (c : Config) (imports : List String) (piece : Entry → Code)
    (caseOf : Entry → ViewCase) (es : List Entry) : String :=
  Code.text (header c.schemaPath ++ importLines imports ++ es.flatMap piece ++
    (ViewPlan.mk ((es.filter Entry.participates).map caseOf)).code)

/-- The order of the entries orders what is written for them, and does nothing else: the same
entries have a position, an artifact is made from both orders or from none, and both are put
together from the same accessors, texts and cases of each entry, and have the same methods. -/
theorem entry_order_only_orders (h : s₁.entries.Perm s₂.entries) (c : Config) :
    (∀ n, (Positions.analyze s₁).contains n = (Positions.analyze s₂).contains n) ∧
    ((∃ text, generate s₁ c = .ok text) ↔ ∃ text, generate s₂ c = .ok text) ∧
    ∀ text₁ text₂, generate s₁ c = .ok text₁ → generate s₂ c = .ok text₂ →
      ∃ (imports : List String) (kindOf : Entry → KindPlan) (caseOf : Entry → ViewCase),
        (∀ e ∈ s₁.entries,
          KindPlan.ofEntry s₁ (Positions.analyze s₁) c.strict e = .ok (kindOf e) ∧
          KindPlan.ofEntry s₂ (Positions.analyze s₂) c.strict e = .ok (kindOf e) ∧
          (kindOf e).code s₁ = (kindOf e).code s₂) ∧
        (∀ e ∈ s₁.participating,
          ViewCase.ofEntry s₁ (Positions.analyze s₁) e = .ok (caseOf e) ∧
          ViewCase.ofEntry s₂ (Positions.analyze s₂) e = .ok (caseOf e)) ∧
        (ViewPlan.mk (s₁.participating.map caseOf)).hasChildren =
          (ViewPlan.mk (s₂.participating.map caseOf)).hasChildren ∧
        text₁ = assemble c imports (fun e => (kindOf e).code s₁) caseOf s₁.entries ∧
        text₂ = assemble c imports (fun e => (kindOf e).code s₂) caseOf s₂.entries := by
  refine ⟨Positions.contains_analyze_perm h, ⟨generate_of_perm h, generate_of_perm h.symm⟩, ?_⟩
  intro text₁ text₂ h₁ h₂
  obtain ⟨p, hp, rfl⟩ := map_eq_ok_iff.mp h₁
  obtain ⟨hkinds, hcases, hp₂⟩ := plan_perm h hp
  obtain ⟨q, hq, rfl⟩ := map_eq_ok_iff.mp h₂
  cases hq.symm.trans hp₂
  obtain ⟨-, -, hcollected, hview, -⟩ := plan_eq_ok_iff.mp hp
  refine ⟨p.imports, kindOf s₁ c.strict, ViewPlan.caseOf s₁, ?_, ?_, ?_, ?_, ?_⟩
  · intro e he
    obtain ⟨k, -, hk⟩ := exists_mem_collect hcollected he
    rw [kindOf_eq hk]
    exact ⟨hk, KindPlan.ofEntry_perm h hk, KindPlan.code_perm h k⟩
  · intro e he
    obtain ⟨d, -, hd⟩ := exists_mem_collect (ViewPlan.cases_of_ofSchema hview) he
    rw [ViewPlan.caseOf_eq hd]
    exact ⟨hd, ViewCase.ofEntry_perm h hd⟩
  · exact ((Schema.participating_perm h).map _).any_eq
  · obtain ⟨imported, kinds, ⟨cases⟩⟩ := p
    cases hkinds
    cases hcases
    simp only [code, assemble, List.flatMap_map]
    rfl
  · simp only [code, assemble, List.flatMap_map]
    rfl

end Artifact

namespace Dialects

/-- The same entries from last to first. -/
def reversed : Schema := ⟨schema.entries.reverse, by decide⟩

def config : Config :=
  { imports := ["crate::NodeId", "crate::HasId", "pxp_span::Span", "pxp_span::Spanned"] }

/-- Both orders give an artifact, with the same accessors and cases; those of the last entry are the
known ones. -/
theorem order_reversed : schema.entries.Perm reversed.entries ∧
    (Positions.analyze schema).contains "Any" = true ∧
    (Positions.analyze reversed).contains "Any" = true ∧
    ∃ text₁ text₂ imports, ∃ (kindOf : Entry → KindPlan) (caseOf : Entry → ViewCase),
      Artifact.generate schema config = .ok text₁ ∧
      Artifact.generate reversed config = .ok text₂ ∧
      kindOf any = anyPlan ∧
      caseOf any = ⟨any, "any", true, .variants [⟨"Item", .tuple, .payload [.box, .box]⟩]⟩ ∧
      (∀ e ∈ schema.entries,
        KindPlan.ofEntry reversed (Positions.analyze reversed) false e = .ok (kindOf e) ∧
        (kindOf e).code schema = (kindOf e).code reversed) ∧
      (∀ e ∈ schema.participating,
        ViewCase.ofEntry reversed (Positions.analyze reversed) e = .ok (caseOf e)) ∧
      (ViewPlan.mk (reversed.participating.map caseOf)).hasChildren = true ∧
      text₁ = Artifact.assemble config imports (fun e => (kindOf e).code schema) caseOf
        schema.entries ∧
      text₂ = Artifact.assemble config imports (fun e => (kindOf e).code reversed) caseOf
        reversed.entries := by
  have hperm : schema.entries.Perm reversed.entries := (List.reverse_perm _).symm
  have hplan : (Artifact.plan schema config).isOk = true := by decide +kernel
  obtain ⟨text₁, ht₁⟩ : ∃ text, Artifact.generate schema config = .ok text := by
    cases hp : Artifact.plan schema config with
    | error f => rw [hp] at hplan; cases hplan
    | ok p => exact ⟨_, map_eq_ok_iff.mpr ⟨p, hp, rfl⟩⟩
  obtain ⟨hsame, hboth, hall⟩ := Artifact.entry_order_only_orders hperm config
  obtain ⟨text₂, ht₂⟩ := hboth.mp ⟨text₁, ht₁⟩
  obtain ⟨imports, kindOf, caseOf, hkinds, hcases, hchildren, h₁, h₂⟩ := hall text₁ text₂ ht₁ ht₂
  have hany : (Positions.analyze schema).contains "Any" = true := by decide +kernel
  have hkind : KindPlan.ofEntry schema (Positions.analyze schema) false any = .ok anyPlan := by
    decide +kernel
  have hcase : ViewCase.ofEntry schema (Positions.analyze schema) any =
      .ok ⟨any, "any", true, .variants [⟨"Item", .tuple, .payload [.box, .box]⟩]⟩ := by
    decide +kernel
  have hkindOf : kindOf any = anyPlan := by
    have h := (hkinds any (by decide)).1
    exact Except.ok.inj (h.symm.trans hkind)
  have hcaseOf := Except.ok.inj ((hcases any (by decide)).1.symm.trans hcase)
  refine ⟨hperm, hany, hsame "Any" ▸ hany, text₁, text₂, imports, kindOf, caseOf, ht₁, ht₂,
    hkindOf, hcaseOf, fun e he => (hkinds e he).2, fun e he => (hcases e he).2, ?_, h₁, h₂⟩
  rw [← hchildren]
  exact List.any_eq_true.mpr ⟨caseOf any, List.mem_map_of_mem (by decide), by rw [hcaseOf]; rfl⟩

end Dialects

end TreeSchema
