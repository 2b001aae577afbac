import TreeSchema.Artifact
import TreeSchema.Proofs.Accessors
import TreeSchema.Proofs.Children.Ending

/-!
# What planning can still refuse

The checks of a schema and the plans for its entries go over the same shapes separately. Once the
checks have passed, no plan finds a broken rule of its own: what is left are references that cannot
be used, positions in strict mode, and the tests of the view as a whole.
-/

namespace TreeSchema

open Checked

/-- The error reports a broken rule, and not a reference. -/
def Error.isBroken : Error → Bool
  | .broken _ _ => true
  | _ => false

namespace Schema

variable {s : Schema} {imported : List String} {e : Entry}

theorem checkShape_of_check (h : s.check imported = .ok ()) (he : e ∈ s.entries) :
    e.checkShape = .ok () := by
  have hentry := (check_eq_ok_iff.mp h).2.1 e he
  exact (then_eq_ok_iff.mp (then_eq_ok_iff.mp hentry).2).1

theorem checkChildren_of_check (h : s.check imported = .ok ()) (he : e ∈ s.entries)
    {spec : ChildrenSpec} (hc : e.children = some spec) : e.checkChildren spec = .ok () := by
  have hentry := (check_eq_ok_iff.mp h).2.1 e he
  have hchildren := (then_eq_ok_iff.mp (then_eq_ok_iff.mp hentry).2).2
  simpa [hc] using hchildren

end Schema

/-! ### Identities -/

namespace IdentityPlan

variable {s : Schema} {e : Entry} {f : Error}

theorem isBroken_checkDelegate {name : String} {t : TypeExpr}
    (h : checkDelegate s e name t = .error f) : f.isBroken = false := by
  unfold checkDelegate at h
  split at h
  · split at h
    · split at h
      · cases h; rfl
      · cases h; rfl
    · cases h; rfl
  · split at h
    · cases h; rfl
    · cases h

theorem isBroken_action {name : String} {v : Variant} (h : action s e name v = .error f) :
    f.isBroken = false := by
  cases v with
  | unit => cases h
  | struct fields hasId => cases h
  | wrap t =>
    simp only [action] at h
    split at h
    · cases h
    · split at h
      · next hd => cases h; exact isBroken_checkDelegate hd
      · cases h

/-- An identity that cannot be found is always the fault of a reference. -/
theorem isBroken_ofEntry (h : ofEntry s e = .error f) : f.isBroken = false := by
  unfold ofEntry at h
  split at h
  · split at h
    · next hcol =>
      cases h
      obtain ⟨v, -, hv⟩ := exists_of_collect_error hcol
      unfold arm at hv
      split at hv
      · next ha => cases hv; exact isBroken_action ha
      · cases hv
    · cases h
  · cases h

end IdentityPlan

/-! ### Positions -/

namespace PositionPlan

variable {s : Schema} {p : Positions} {strict : Bool} {e : Entry} {f : Error}

theorem fieldOf?_eq_none_iff {fields : Fields} :
    fieldOf? fields = none ↔ fields.any (·.2.isPosition) = false := by
  have hc : (fields.filter (·.2.isPosition)).map Prod.fst = [] ↔
      fields.any (·.2.isPosition) = false := by
    simp [List.filter_eq_nil_iff]
  rw [← hc]
  unfold fieldOf?
  cases (fields.filter (·.2.isPosition)).map Prod.fst with
  | nil => simp
  | cons a as => simp

/-- A product with a position has a field for it: it declares one, or the checks have asked for
one. -/
theorem fieldOf?_of_positioned {fields : Fields} (hs : e.shape = .product fields)
    (hshape : e.checkShape = .ok ()) (hp : Positioned s e) : fieldOf? fields ≠ none := by
  rw [Ne, fieldOf?_eq_none_iff, Bool.not_eq_false]
  have hforced : e.forcePosition = true → fields.any (·.2.isPosition) = true := by
    intro hf
    simp only [Entry.checkShape, hs, then_eq_ok_iff, require_eq_ok_iff, hf, Bool.not_true,
      Bool.false_or] at hshape
    exact hshape.2
  cases hp with
  | forced kind forced => exact hforced forced
  | field shape field =>
    cases hs.symm.trans shape
    exact List.any_eq_true.mpr ⟨_, field, rfl⟩
  | payload shape => cases hs.symm.trans shape
  | variantField shape => cases hs.symm.trans shape
  | wraps shape => cases hs.symm.trans shape

theorem isAlias_of_positioned (hp : Positioned s e) : e.isAlias = false := by
  cases hp with
  | forced kind => exact kind
  | field shape => simp [Entry.isAlias, shape]
  | payload shape => simp [Entry.isAlias, shape]
  | variantField shape => simp [Entry.isAlias, shape]
  | wraps shape => simp [Entry.isAlias, shape]

/-- Without the strict mode, the variants of a sum never fail. -/
theorem collect_arm_lenient (s : Schema) (p : Positions) (e : Entry)
    (variants : List (String × Variant)) :
    collect (arm s p false e) variants =
      .ok (variants.map fun v => ⟨v.1, v.2.form, action s p v.2⟩) := by
  rw [collect_eq_ok_iff, List.forall₂_map_right_iff, List.forall₂_same]
  intro v _
  rfl

/-- Positions that cannot be derived: only in strict mode, for a sum with a variant that has
none. -/
theorem ofEntry_error (hshape : e.checkShape = .ok ()) (hp : Positioned s e)
    (h : ofEntry s p strict e = .error f) :
    strict = true ∧ e.isSum = true ∧ ∃ arms, ofEntry s p false e = .ok (.dispatch arms) ∧
      ∃ a ∈ arms, a.action = .none := by
  cases hs : e.shape with
  | aliasOf t =>
    have ha := isAlias_of_positioned hp
    simp [Entry.isAlias, hs] at ha
  | product fields =>
    cases hf : fieldOf? fields with
    | none => exact absurd hf (fieldOf?_of_positioned hs hshape hp)
    | some name => simp [ofEntry, hs, hf] at h
  | sum variants =>
    simp only [ofEntry, hs] at h
    split at h
    · next g hcol =>
      obtain ⟨v, hv, harm⟩ := exists_of_collect_error hcol
      unfold arm at harm
      split at harm
      · next hcond =>
        simp only [Bool.and_eq_true, beq_iff_eq] at hcond
        have hlenient : ofEntry s p false e =
            .ok (.dispatch (variants.map fun v => ⟨v.1, v.2.form, action s p v.2⟩)) := by
          simp only [ofEntry, hs, collect_arm_lenient]
        have hsum : e.isSum = true := by simp [Entry.isSum, hs]
        exact ⟨hcond.1, hsum, _, hlenient, _, List.mem_map_of_mem hv, hcond.2⟩
      · cases harm
    · cases h

end PositionPlan

namespace KindPlan

variable {s : Schema} {p : Positions} {strict : Bool} {e : Entry} {f : Error}

theorem ofEntry_eq_error_iff : ofEntry s p strict e = .error f ↔ identityOf s e = .error f ∨
    ((∃ i, identityOf s e = .ok i) ∧ positionOf s p strict e = .error f) := by
  unfold ofEntry
  cases identityOf s e with
  | error g => simp
  | ok i =>
    cases positionOf s p strict e with
    | error g => simp
    | ok q => simp

theorem isBroken_identityOf (h : identityOf s e = .error f) : f.isBroken = false := by
  unfold identityOf at h
  split at h
  · exact IdentityPlan.isBroken_ofEntry (map_eq_error_iff.mp h)
  · cases h

/-- A broken rule in the plan of an entry is a missing position in strict mode. -/
theorem ofEntry_isBroken {imported : List String} (hc : s.check imported = .ok ())
    (he : e ∈ s.entries) (h : ofEntry s (Positions.analyze s) strict e = .error f)
    (hf : f.isBroken = true) :
    strict = true ∧ (Positions.analyze s).contains e.name = true ∧ e.isSum = true ∧
      ∃ arms, PositionPlan.ofEntry s (Positions.analyze s) false e = .ok (.dispatch arms) ∧
        ∃ a ∈ arms, a.action = .none := by
  rcases ofEntry_eq_error_iff.mp h with hi | ⟨-, hpos⟩
  · rw [isBroken_identityOf hi] at hf
    cases hf
  · unfold positionOf at hpos
    split at hpos
    · next hcon =>
      have hp := (Positions.mem_analyze_iff he).mp (Positions.contains_iff.mp hcon)
      obtain ⟨hstrict, hrest⟩ := PositionPlan.ofEntry_error
        (Schema.checkShape_of_check hc he) hp (map_eq_error_iff.mp hpos)
      exact ⟨hstrict, hcon, hrest⟩
    · cases hpos

end KindPlan

/-! ### Children -/

namespace ChildrenPlan

variable {s : Schema} {e : Entry} {f : Error}

/-- The two ways in which a path to a child may be missing. -/
def Unreached (s : Schema) (e : Entry) (f : Error) : Prop :=
  (∃ field reason, f = .badUse e.name field reason) ∨
    ∃ field, ∃ t ∈ e.shape.types, s.Endless t ∧ f = .endless e.name field

theorem unreached_of_find {field : String} {t : TypeExpr} (ht : t ∈ e.shape.types)
    (h : Access.find s e field t = .error f) : Unreached s e f := by
  rcases Access.find_error h with ⟨reason, hf⟩ | ⟨hf, hend⟩
  · exact .inl ⟨field, reason, hf⟩
  · exact .inr ⟨field, t, ht, hend, hf⟩

/-- A reference that passed its check has a field. -/
theorem unreached_productWalk {fields : Fields} {child : ChildRef} (hs : e.shape = .product fields)
    (hc : e.checkProductChild fields child = .ok ())
    (h : productWalk s e fields child = .error f) : Unreached s e f := by
  unfold productWalk at h
  split at h
  · next hnone =>
    have hfield := (then_eq_ok_iff.mp hc).2
    rw [hnone] at hfield
    cases hfield
  · next t ht =>
    refine unreached_of_find ?_ (map_eq_error_iff.mp h)
    rw [hs]
    exact List.mem_map.mpr ⟨_, Fields.mem_of_lookup ht, rfl⟩

theorem unreached_payloadBody {name : String} {v : Variant} (hv : v.types ⊆ e.shape.types)
    (hc : v.fields?.isNone = true) (h : payloadBody s e name v = .error f) : Unreached s e f := by
  cases v with
  | unit => cases h
  | struct fields hasId => simp [Variant.fields?] at hc
  | wrap t =>
    simp only [payloadBody] at h
    split at h
    · cases h
    · exact unreached_of_find (hv (by simp [Variant.types])) (map_eq_error_iff.mp h)

theorem unreached_refsBody {refs : List ChildRef} {v : Variant} (hv : v.types ⊆ e.shape.types)
    (h : refsBody s e refs v = .error f) : Unreached s e f := by
  cases v with
  | unit => cases h
  | wrap t => cases h
  | struct fields hasId =>
    obtain ⟨⟨field, t⟩, hf, hwalk⟩ := exists_of_collect_error (map_eq_error_iff.mp h)
    refine unreached_of_find (hv ?_) (map_eq_error_iff.mp hwalk)
    exact List.mem_map.mpr ⟨_, Fields.mem_of_lookup (lookup_of_mem_declared hf), rfl⟩

/-- Children that passed their checks fail to be planned only for want of a path. -/
theorem unreached_ofEntry {imported : List String} (hc : s.check imported = .ok ())
    (he : e ∈ s.entries) (h : ofEntry s e = .error f) : Unreached s e f := by
  unfold ofEntry at h
  cases hspec : e.children with
  | none => simp [hspec] at h
  | some spec =>
    have hchecked := (then_eq_ok_iff.mp (Schema.checkChildren_of_check hc he hspec)).2
    cases hs : e.shape with
    | aliasOf target => cases spec <;> simp [hs] at hchecked
    | product fields =>
      cases spec with
      | variants => simp [hs] at hchecked
      | refs refs =>
        simp only [hs, forEach_eq_ok_iff] at hchecked
        simp only [hspec, hs] at h
        obtain ⟨child, hchild, hwalk⟩ := exists_of_collect_error (map_eq_error_iff.mp h)
        have href := hchecked child (List.mem_filter.mp hchild).1
        exact unreached_productWalk hs href hwalk
    | sum variants =>
      have htypes : ∀ v ∈ variants, v.2.types ⊆ e.shape.types := by
        intro v hv t ht
        rw [hs]
        exact List.mem_flatMap.mpr ⟨v, hv, ht⟩
      cases spec with
      | variants =>
        simp only [hs, forEach_eq_ok_iff, require_eq_ok_iff] at hchecked
        simp only [hspec, hs] at h
        obtain ⟨v, hv, harm⟩ := exists_of_collect_error (map_eq_error_iff.mp h)
        exact unreached_payloadBody (htypes v hv) (hchecked v hv) (map_eq_error_iff.mp harm)
      | refs refs =>
        simp only [hspec, hs] at h
        obtain ⟨v, hv, harm⟩ := exists_of_collect_error (map_eq_error_iff.mp h)
        exact unreached_refsBody (htypes v hv) (map_eq_error_iff.mp harm)

end ChildrenPlan

/-! ### The view as a whole -/

namespace ViewPlan

/-- The tests of the view: an entry has a name of the view itself, no kind has a case, an accessor
is a method of the view, or two kinds of different names have one accessor. -/
inductive Refuses (s : Schema) : Error → Prop where
  | reserved {e : Entry} (entry : e ∈ s.entries) (name : isReserved e.displayName = true) :
      Refuses s (.broken e.name (.reservedName e.displayName))
  | empty (none : s.participating = []) : Refuses s (.broken Fixed.unionName .someKind)
  | ownMethod {e : Entry} (kind : e ∈ s.participating)
      (method : "as_" ++ Name.snakeCase e.displayName ∈ ownMethods) :
      Refuses s (.broken e.name (.ownMethod ("as_" ++ Name.snakeCase e.displayName)))
  | accessor {d e : Entry} (first : d ∈ s.participating) (second : e ∈ s.participating)
      (same : Name.snakeCase d.displayName = Name.snakeCase e.displayName)
      (names : d.displayName ≠ e.displayName) :
      Refuses s (.broken e.name (.distinctAccessor (Name.snakeCase e.displayName) d.displayName))

variable {s : Schema} {p : Positions} {f : Error}

theorem refuses_of_checkAccessors {seen cases : List ViewCase}
    (hcase : ∀ c ∈ seen ++ cases, c.entry ∈ s.participating ∧
      c.accessor = Name.snakeCase c.entry.displayName)
    (h : checkAccessors seen cases = .error f) : Refuses s f := by
  induction cases generalizing seen with
  | nil => cases h
  | cons c rest ih =>
    obtain ⟨hc, hacc⟩ := hcase c (by simp)
    have hnext : checkAccessors (seen ++ [c]) rest = .error f → Refuses s f := by
      refine ih fun d hd => hcase d ?_
      simpa using hd
    unfold checkAccessors at h
    split at h
    · next hown =>
      cases h
      rw [ViewCase.asMethod, hacc] at hown ⊢
      exact .ownMethod hc (List.contains_iff_mem.mp hown)
    · split at h
      · next d hd =>
        split at h
        · exact hnext h
        · next hne =>
          cases h
          obtain ⟨hdp, hdacc⟩ := hcase d (List.mem_append_left _ (List.mem_of_find?_eq_some hd))
          have hsame : d.accessor = c.accessor := by simpa using List.find?_some hd
          rw [hacc]
          exact .accessor hdp hc (by rw [← hdacc, hsame, hacc]) hne
      · exact hnext h

/-- The view is refused by one of its tests, or because of the children of a kind. -/
theorem refuses_or_children (h : ofSchema s p = .error f) :
    Refuses s f ∨ ∃ e ∈ s.participating, ChildrenPlan.ofEntry s e = .error f := by
  rcases bind_eq_error_iff.mp h with hres | ⟨_, -, h⟩
  · obtain ⟨e, he, hreq⟩ := exists_of_forEach_error hres
    obtain ⟨hname, rfl⟩ := require_eq_error_iff.mp hreq
    exact .inl (.reserved he (by simpa using hname))
  · rcases bind_eq_error_iff.mp h with hcol | ⟨cases, hcol, h⟩
    · obtain ⟨e, he, hcase⟩ := exists_of_collect_error hcol
      exact .inr ⟨e, he, map_eq_error_iff.mp hcase⟩
    · have hcases : ∀ c ∈ cases, c.entry ∈ s.participating ∧
          c.accessor = Name.snakeCase c.entry.displayName := by
        intro c hm
        obtain ⟨e, he, hce⟩ := exists_of_mem_collect hcol hm
        obtain ⟨children, -, rfl⟩ := map_eq_ok_iff.mp hce
        exact ⟨he, rfl⟩
      left
      rcases bind_eq_error_iff.mp h with hreq | ⟨_, -, h⟩
      · obtain ⟨hempty, rfl⟩ := require_eq_error_iff.mp hreq
        obtain rfl : cases = [] := by simpa using hempty
        have hforall := collect_eq_ok_iff.mp hcol
        exact .empty (List.forall₂_nil_right_iff.mp hforall)
      · rcases bind_eq_error_iff.mp h with hacc | ⟨_, -, h⟩
        · refine refuses_of_checkAccessors ?_ hacc
          simpa using hcases
        · cases h

/-- The view breaks a rule only by one of its tests. -/
theorem refuses_of_ofSchema {imported : List String} (hc : s.check imported = .ok ())
    (h : ofSchema s p = .error f) (hf : f.isBroken = true) : Refuses s f := by
  rcases refuses_or_children h with hrefuses | ⟨e, he, hchildren⟩
  · exact hrefuses
  · have hentry : e ∈ s.entries := (List.mem_filter.mp he).1
    rcases ChildrenPlan.unreached_ofEntry hc hentry hchildren with
      ⟨field, reason, rfl⟩ | ⟨field, t, -, -, rfl⟩
    · cases hf
    · cases hf

end ViewPlan

namespace Artifact

variable {s : Schema} {c : Config} {f : Error}

/-- Without the strict mode, an artifact that breaks a rule after the checks is refused by the
view. -/
theorem refuses_of_generate (hc : s.check (importedNames s c) = .ok ()) (hstrict : c.strict = false)
    (h : generate s c = .error f) (hf : f.isBroken = true) : ViewPlan.Refuses s f := by
  have hplan : plan s c = .error f := map_eq_error_iff.mp h
  rcases bind_eq_error_iff.mp hplan with hcheck | ⟨_, -, hplan⟩
  · rw [hc] at hcheck
    cases hcheck
  · rcases bind_eq_error_iff.mp hplan with htrait | ⟨_, -, hplan⟩
    · unfold checkPositionTrait at htrait
      split at htrait
      · cases htrait
      · obtain ⟨-, rfl⟩ := require_eq_error_iff.mp htrait
        cases hf
    · rcases bind_eq_error_iff.mp hplan with hkinds | ⟨_, -, hplan⟩
      · obtain ⟨e, he, hke⟩ := exists_of_collect_error hkinds
        have hs := (KindPlan.ofEntry_isBroken hc he hke hf).1
        rw [hstrict] at hs
        cases hs
      · rcases bind_eq_error_iff.mp hplan with hview | ⟨_, -, hplan⟩
        · exact ViewPlan.refuses_of_ofSchema hc hview hf
        · cases hplan

end Artifact

/-- Once the checks have passed: the accessors of an entry break no rule, except in strict mode
that of a sum with a position one of whose variants has none without the strict mode; children
fail only through a bad reference, or never end; and without the strict mode only the tests of the
view can find a broken rule. -/
theorem planning_after_check {s : Schema} {imported : List String}
    (hc : s.check imported = .ok ()) :
    (∀ e ∈ s.entries, ∀ f, KindPlan.ofEntry s (Positions.analyze s) false e = .error f →
      f.isBroken = false) ∧
    (∀ e ∈ s.entries, ∀ f, KindPlan.ofEntry s (Positions.analyze s) true e = .error f →
      f.isBroken = true → e.isSum = true ∧ (Positions.analyze s).contains e.name = true ∧
        ∃ arms, PositionPlan.ofEntry s (Positions.analyze s) false e = .ok (.dispatch arms) ∧
          ∃ a ∈ arms, a.action = .none) ∧
    (∀ e ∈ s.entries, ∀ f, ChildrenPlan.ofEntry s e = .error f →
      (∃ field reason, f = .badUse e.name field reason) ∨
        ∃ field, ∃ t ∈ e.shape.types, s.Endless t ∧ f = .endless e.name field) ∧
    (∀ c f, Artifact.importedNames s c = imported → c.strict = false →
      Artifact.generate s c = .error f → f.isBroken = true → ViewPlan.Refuses s f) := by
  refine ⟨?_, ?_, ?_, ?_⟩
  · intro e he f h
    rw [← Bool.not_eq_true]
    intro hf
    cases (KindPlan.ofEntry_isBroken hc he h hf).1
  · intro e he f h hf
    obtain ⟨-, hpos, hsum, harms⟩ := KindPlan.ofEntry_isBroken hc he h hf
    exact ⟨hsum, hpos, harms⟩
  · intro e he f h
    exact ChildrenPlan.unreached_ofEntry hc he h
  · intro c f himp hstrict h hf
    subst himp
    exact Artifact.refuses_of_generate hc hstrict h hf

namespace Refused

/-! A sum with a position, one of whose variants has none, and a product under a name of the
view. -/

def literal : Entry :=
  { name := "Literal", displayName := "Literal",
    shape := .sum [("Missing", .unit), ("Text", .wrap .position), ("Leaf", .wrap (.named "Leaf"))],
    children := some .variants }

def leaf : Entry :=
  { name := "Leaf", displayName := "Node", shape := .product [("span", .position)] }

def schema : Schema := ⟨[literal, leaf], by decide⟩

def config : Config := { imports := ["crate::NodeId", "crate::HasId", "pxp_span::Span", "Spanned"] }

theorem planning_literal :
    schema.check (Artifact.importedNames schema config) = .ok () ∧
    KindPlan.ofEntry schema (Positions.analyze schema) true literal =
      .error (.broken "Literal" (.derivablePosition "Missing")) ∧
    Artifact.generate schema config = .error (.broken "Leaf" (.reservedName "Node")) ∧
    (∃ arms, PositionPlan.ofEntry schema (Positions.analyze schema) false literal =
      .ok (.dispatch arms) ∧ ∃ a ∈ arms, a.action = .none) ∧
    ViewPlan.Refuses schema (.broken "Leaf" (.reservedName "Node")) := by
  have hc : schema.check (Artifact.importedNames schema config) = .ok () := by decide +kernel
  have hk : KindPlan.ofEntry schema (Positions.analyze schema) true literal =
      .error (.broken "Literal" (.derivablePosition "Missing")) := by decide +kernel
  have hg : Artifact.generate schema config = .error (.broken "Leaf" (.reservedName "Node")) := by
    have hp : (Artifact.plan schema config).map (fun _ => ()) =
        .error (.broken "Leaf" (.reservedName "Node")) := by decide +kernel
    exact map_eq_error_iff.mpr (map_eq_error_iff.mp hp)
  obtain ⟨-, hstrict, -, hview⟩ := planning_after_check hc
  have hm : literal ∈ schema.entries := by decide
  refine ⟨hc, hk, hg, (hstrict literal hm _ hk rfl).2.2, hview config _ rfl rfl hg rfl⟩

end Refused

end TreeSchema
