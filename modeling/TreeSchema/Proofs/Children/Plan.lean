import TreeSchema.Children.Plan
import TreeSchema.Proofs.Checked
import TreeSchema.Proofs.Schema.Lookup

/-!
# Where access paths come from

Every access path of a children plan was found for the type of a field or payload of the entry. It
leads through the wrappers of that type, with aliases replaced, to a name of kinds of the view.
-/

namespace TreeSchema

open Checked

namespace Access

/-- Through the wrappers `a`, and aliases between them, a type leads to a name. -/
inductive Leads (s : Schema) : TypeExpr → Access → String → Prop where
  | name {t : TypeExpr} {n : String} (core : s.resolveAlias t = .named n) : Leads s t [] n
  | wrap {t inner : TypeExpr} {w : Wrapper} {a : Access} {n : String}
      (core : s.resolveAlias t = .wrap w inner) (rest : Leads s inner a n) : Leads s t (w :: a) n

variable {s : Schema} {e : Entry} {field : String} {t : TypeExpr} {a : Access}

theorem checkNode_eq_ok_iff {n : String} : checkNode s e field n = .ok a ↔
    a = [] ∧ s.resolve n ≠ [] ∧ ∀ target ∈ s.resolve n, target.participates = true := by
  unfold checkNode
  cases hr : s.resolve n with
  | nil => simp
  | cons first rest =>
    cases hf : (first :: rest).find? fun target => !target.participates with
    | some target =>
      have hm := List.mem_of_find?_eq_some hf
      have hp : target.participates = false := by simpa using List.find?_some hf
      simp only [hf, reduceCtorEq, false_iff]
      rintro ⟨-, -, hall⟩
      simp [hall target hm] at hp
    | none =>
      have hall : ∀ target ∈ first :: rest, target.participates = true := by
        simpa using List.find?_eq_none.mp hf
      simp only [hf, Except.ok.injEq, ne_eq, reduceCtorEq, not_false_eq_true, true_and]
      exact ⟨fun h => ⟨h.symm, hall⟩, fun h => h.1.symm⟩

/-- A path that is found ends at a name that refers to kinds of the view only. -/
theorem leads_of_ofType {k : ℕ} (h : ofType s e field k t = .ok a) :
    ∃ n, Leads s t a n ∧ s.resolve n ≠ [] ∧ ∀ target ∈ s.resolve n, target.participates = true := by
  induction k generalizing t a with
  | zero => cases h
  | succ k ih =>
    unfold ofType at h
    split at h
    · next w inner hw =>
      obtain ⟨rest, hrest, rfl⟩ := map_eq_ok_iff.mp h
      obtain ⟨n, hn, hres⟩ := ih hrest
      exact ⟨n, .wrap hw hn, hres⟩
    · cases h
    · next n hname =>
      obtain ⟨rfl, hres⟩ := checkNode_eq_ok_iff.mp h
      exact ⟨n, .name hname, hres⟩

theorem leads_of_find (h : find s e field t = .ok a) :
    ∃ n, Leads s t a n ∧ s.resolve n ≠ [] ∧ ∀ target ∈ s.resolve n, target.participates = true :=
  leads_of_ofType h

end Access

/-- Each walk goes over one of the fields, and `P` holds of its type and path. -/
def WalksOver (fields : Fields) (P : TypeExpr → Access → Prop) (walks : List Walk) : Prop :=
  ∀ w ∈ walks, ∃ t, fields.lookup w.field = some t ∧ P t w.access

/-- What an arm goes over belongs to a variant of its name, and each field has its variable. -/
def VariantWalk.Over (variants : List (String × Variant)) (P : TypeExpr → Access → Prop)
    (arm : VariantWalk) : Prop :=
  match arm.body with
  | .empty => ∃ v, (arm.variant, v) ∈ variants ∧ arm.form = v.form
  | .payload a => arm.form = .tuple ∧ ∃ t, (arm.variant, .wrap t) ∈ variants ∧ P t a
  | .fields walks => arm.form = .struct ∧ walks ≠ [] ∧
      (∀ w ∈ walks, w.binding = some (ChildrenPlan.bindingOf w.field)) ∧
      ∃ fields hasId, (arm.variant, .struct fields hasId) ∈ variants ∧ WalksOver fields P walks

/-- All that a plan goes over belongs to the entry, and `P` holds of each type and its path. -/
def ChildrenPlan.Over (e : Entry) (P : TypeExpr → Access → Prop) : ChildrenPlan → Prop
  | none => True
  | fields walks => ∃ fields, e.shape = .product fields ∧ WalksOver fields P walks
  | variants arms => ∃ variants, e.shape = .sum variants ∧ ∀ arm ∈ arms, arm.Over variants P

namespace ChildrenPlan

variable {s : Schema} {e : Entry} {P : TypeExpr → Access → Prop}

theorem walksOver_product {fields : Fields} {refs : List ChildRef} {walks : List Walk}
    (hP : ∀ f t a, (f, t) ∈ fields → Access.find s e f t = .ok a → P t a)
    (h : collect (productWalk s e fields) refs = .ok walks) : WalksOver fields P walks := by
  intro w hw
  obtain ⟨child, -, hchild⟩ := exists_of_mem_collect h hw
  unfold productWalk at hchild
  split at hchild
  · cases hchild
  · next t ht =>
    obtain ⟨a, ha, rfl⟩ := map_eq_ok_iff.mp hchild
    exact ⟨t, ht, hP _ t a (Fields.mem_of_lookup ht) ha⟩

theorem lookup_of_mem_declared {refs : List ChildRef} {fields : Fields} {f : String × TypeExpr}
    (h : f ∈ declared refs fields) : fields.lookup f.1 = some f.2 := by
  simp only [declared, List.mem_filterMap, Option.map_eq_some_iff] at h
  obtain ⟨child, -, t, ht, rfl⟩ := h
  exact ht

theorem walksOver_variant {fields : Fields} {refs : List ChildRef} {walks : List Walk}
    (hP : ∀ f t a, (f, t) ∈ fields → Access.find s e f t = .ok a → P t a)
    (h : collect (variantWalk s e) (declared refs fields) = .ok walks) :
    WalksOver fields P walks := by
  intro w hw
  obtain ⟨⟨f, t⟩, hf, hwalk⟩ := exists_of_mem_collect h hw
  have ht := lookup_of_mem_declared hf
  obtain ⟨a, ha, rfl⟩ := map_eq_ok_iff.mp hwalk
  exact ⟨t, ht, hP f t a (Fields.mem_of_lookup ht) ha⟩

theorem bindingOf_of_mem {f : String} (h : f ∈ ownVariables) : bindingOf f = f ++ "_" := by
  rw [bindingOf, if_pos (List.contains_iff_mem.mpr h)]

theorem bindingOf_of_notMem {f : String} (h : f ∉ ownVariables) : bindingOf f = f := by
  rw [bindingOf, if_neg (mt List.contains_iff_mem.mp h)]

/-- A marked name is none of the accessor's. -/
theorem marked_notMem_ownVariables : ∀ own ∈ ownVariables, own ++ "_" ∉ ownVariables := by
  decide

theorem bindingOf_notMem_ownVariables (f : String) : bindingOf f ∉ ownVariables := by
  by_cases hf : f ∈ ownVariables
  · rw [bindingOf_of_mem hf]
    exact marked_notMem_ownVariables f hf
  · rwa [bindingOf_of_notMem hf]

theorem binding_variantWalk {fields : Fields} {walks : List Walk}
    (h : collect (variantWalk s e) fields = .ok walks) :
    ∀ w ∈ walks, w.binding = some (bindingOf w.field) := by
  intro w hw
  obtain ⟨f, -, hwalk⟩ := exists_of_mem_collect h hw
  obtain ⟨a, -, rfl⟩ := map_eq_ok_iff.mp hwalk
  rfl

theorem over_payloadArm {variants : List (String × Variant)} {v : String × Variant}
    {arm : VariantWalk} (hv : v ∈ variants)
    (hP : ∀ f t a, t ∈ v.2.types → Access.find s e f t = .ok a → P t a)
    (h : variantArm (payloadBody s e v.1) v = .ok arm) : arm.Over variants P := by
  obtain ⟨name, variant⟩ := v
  obtain ⟨body, hbody, rfl⟩ := map_eq_ok_iff.mp h
  cases variant with
  | unit => cases hbody; exact ⟨_, hv, rfl⟩
  | struct fields hasId => cases hbody
  | wrap t =>
    simp only [payloadBody] at hbody
    split at hbody
    · cases hbody; exact ⟨_, hv, rfl⟩
    · obtain ⟨a, ha, rfl⟩ := map_eq_ok_iff.mp hbody
      exact ⟨rfl, t, hv, hP _ t a (by simp [Variant.types]) ha⟩

theorem over_refsArm {variants : List (String × Variant)} {refs : List ChildRef}
    {v : String × Variant} {arm : VariantWalk} (hv : v ∈ variants)
    (hP : ∀ f t a, t ∈ v.2.types → Access.find s e f t = .ok a → P t a)
    (h : variantArm (refsBody s e refs) v = .ok arm) : arm.Over variants P := by
  obtain ⟨name, variant⟩ := v
  obtain ⟨body, hbody, rfl⟩ := map_eq_ok_iff.mp h
  cases variant with
  | unit => cases hbody; exact ⟨_, hv, rfl⟩
  | wrap t => cases hbody; exact ⟨_, hv, rfl⟩
  | struct fields hasId =>
    obtain ⟨walks, hwalks, rfl⟩ := map_eq_ok_iff.mp hbody
    have hover : WalksOver fields P walks := by
      refine walksOver_variant (fun f t a hf => hP f t a ?_) hwalks
      exact List.mem_map.mpr ⟨(f, t), hf, rfl⟩
    cases walks with
    | nil => exact ⟨_, hv, rfl⟩
    | cons w ws =>
      exact ⟨rfl, List.cons_ne_nil _ _, binding_variantWalk hwalks, fields, hasId, hv, hover⟩

/-- What holds of all paths that are found for types of an entry holds of its plan. -/
theorem over_ofEntry {plan : ChildrenPlan}
    (hP : ∀ f t a, t ∈ e.shape.types → Access.find s e f t = .ok a → P t a)
    (h : ofEntry s e = .ok plan) : plan.Over e P := by
  unfold ofEntry at h
  cases hc : e.children with
  | none =>
    simp only [hc, Except.ok.injEq] at h
    subst h
    trivial
  | some spec =>
    cases hs : e.shape with
    | aliasOf target => cases spec <;> simp [hc, hs] at h
    | product fields =>
      cases spec with
      | variants => simp [hc, hs] at h
      | refs refs =>
        simp only [hc, hs] at h
        obtain ⟨walks, hwalks, rfl⟩ := map_eq_ok_iff.mp h
        refine ⟨fields, hs, walksOver_product (fun f t a hf => hP f t a ?_) hwalks⟩
        rw [hs]
        exact List.mem_map.mpr ⟨(f, t), hf, rfl⟩
    | sum variants =>
      have htypes : ∀ v ∈ variants, ∀ t ∈ v.2.types, t ∈ e.shape.types := by
        intro v hv t ht
        rw [hs]
        exact List.mem_flatMap.mpr ⟨v, hv, ht⟩
      cases spec with
      | variants =>
        simp only [hc, hs] at h
        obtain ⟨arms, harms, rfl⟩ := map_eq_ok_iff.mp h
        refine ⟨variants, hs, fun arm harm => ?_⟩
        obtain ⟨v, hv, hva⟩ := exists_of_mem_collect harms harm
        exact over_payloadArm hv (fun f t a ht => hP f t a (htypes v hv t ht)) hva
      | refs refs =>
        simp only [hc, hs] at h
        obtain ⟨arms, harms, rfl⟩ := map_eq_ok_iff.mp h
        refine ⟨variants, hs, fun arm harm => ?_⟩
        obtain ⟨v, hv, hva⟩ := exists_of_mem_collect harms harm
        exact over_refsArm hv (fun f t a ht => hP f t a (htypes v hv t ht)) hva

end ChildrenPlan

end TreeSchema
