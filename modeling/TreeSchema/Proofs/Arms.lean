import TreeSchema.Proofs.Children.Bindings
import TreeSchema.Proofs.Planning

/-!
# One arm for each variant

A sum is written as a definition and up to three matches over its variants: for the identity, for
the position and for the children. Each is planned and written on its own, yet all of them go
through the same variants, in the same order and in the same forms.
-/

namespace TreeSchema

open Checked

/-! ### Forms in the text -/

namespace Code

/-- The line that some code starts with. -/
def head : Code → String
  | .line text :: _ => text
  | .openBlock text :: _ => text
  | _ => ""

/-- What stands between the first and the last line. -/
def inside (code : Code) : Code := code.tail.dropLast

end Code

namespace PatternForm

/-- What follows a variant says whether it stands alone, or holds a payload or fields. -/
def ofRest? : List Char → Option PatternForm
  | ',' :: _ => some .unit
  | ' ' :: '=' :: _ => some .unit
  | '(' :: _ => some .tuple
  | ' ' :: '\x7b' :: _ => some .struct
  | _ => none

/-- The form in which a text uses the variant that it starts with. -/
def read? (variant text : String) : Option PatternForm :=
  if variant.toList.isPrefixOf text.toList then ofRest? (text.toList.drop variant.toList.length)
  else none

theorem read?_of_toList {variant text : String} {rest : List Char}
    (h : text.toList = variant.toList ++ rest) : read? variant text = ofRest? rest := by
  rw [read?, h, List.drop_left, if_pos (List.isPrefixOf_iff_prefix.mpr (List.prefix_append _ _))]

end PatternForm

/-- Arms are written in the form that they are planned in. -/
theorem Arm.read?_text {α : Type} (a : Arm α) (binding : Option String) (result : String) :
    PatternForm.read? ("Self::" ++ a.variant) (a.text binding result) = some a.form := by
  obtain ⟨variant, form, action⟩ := a
  cases form <;> cases binding <;>
    rw [PatternForm.read?_of_toList (by simp [text, PatternForm.pattern]; rfl)] <;> rfl

theorem Entry.read?_variantCode (s : Schema) (v : String × Variant) :
    PatternForm.read? v.1 (variantCode s v).head = some v.2.form := by
  obtain ⟨name, variant⟩ := v
  cases variant <;>
    rw [PatternForm.read?_of_toList (by simp [variantCode, Code.head]; rfl)] <;> rfl

/-- An arm under a name and in a form, written from some line on, is the arm of a variant: the
variant is defined in that form, and the pattern of the arm is the variant, after a path, in that
form. -/
structure IsArmOf (s : Schema) (v : String × Variant) (path name : String) (form : PatternForm)
    (text : String) : Prop where
  variant : name = v.1
  defined : PatternForm.read? v.1 (Entry.variantCode s v).head = some form
  matched : PatternForm.read? (path ++ v.1) text = some form

/-! ### Identities -/

namespace IdentityPlan

variable {s : Schema} {e : Entry}

/-- An arm of the identity does what its variant asks for. -/
structure Agrees (s : Schema) (v : String × Variant) (a : Arm IdentityAction) : Prop
    extends IsArmOf s v "Self::" a.variant a.form (armText a) where
  /-- The identity is stored where the definition puts one before the declared fields. -/
  stored : a.action = .stored ↔ ∃ fields hasId, v.2 = .struct fields hasId ∧
    (Entry.variantCode s v).inside =
      .line (Entry.identityText "") :: fields.map fun f => .line (Entry.fieldText s "" f)
  delegate : a.action = .delegate ↔ ∃ t, v.2 = .wrap t ∧ t ≠ .position

theorem read?_armText (a : Arm IdentityAction) :
    PatternForm.read? ("Self::" ++ a.variant) (armText a) = some a.form := by
  unfold armText
  split <;> exact a.read?_text ..

theorem inside_variantCode (name : String) (fields : Fields) (hasId : Bool) :
    (Entry.variantCode s (name, .struct fields hasId)).inside =
      (if hasId then [.line (Entry.identityText "")] else []) ++
        fields.map fun f => .line (Entry.fieldText s "" f) := by
  rw [Code.inside, Entry.variantCode]
  exact List.dropLast_concat

/-- The definition of a variant has a line more than it has fields if it stores an identity. -/
theorem inside_variantCode_iff {name : String} {fields : Fields} {hasId : Bool} :
    (Entry.variantCode s (name, .struct fields hasId)).inside =
      .line (Entry.identityText "") :: (fields.map fun f => .line (Entry.fieldText s "" f)) ↔
        hasId = true := by
  rw [inside_variantCode]
  cases hasId with
  | true => simp
  | false =>
    simp only [Bool.false_eq_true, if_false, List.nil_append, iff_false]
    intro h
    have hlength := congrArg List.length h
    simp at hlength

theorem action_eq_ok {name : String} {v : Variant} {a : IdentityAction}
    (h : action s e name v = .ok a) :
    (a = .stored ↔ ∃ fields, v = .struct fields true) ∧
      (a = .delegate ↔ ∃ t, v = .wrap t ∧ t ≠ .position) := by
  cases v with
  | unit => cases h; simp
  | struct fields hasId => cases h; cases hasId <;> simp
  | wrap t =>
    simp only [action] at h
    split at h
    · next ht => cases h; simpa using TypeExpr.isPosition_iff.mp ht
    · next ht =>
      split at h
      · cases h
      · cases h; simpa using ht

theorem agrees_of_arm {v : String × Variant} {a : Arm IdentityAction} (h : arm s e v = .ok a) :
    Agrees s v a := by
  unfold arm at h
  split at h
  · cases h
  · next act hact =>
    cases h
    obtain ⟨hstored, hdelegate⟩ := action_eq_ok hact
    have hmatched := read?_armText (⟨v.1, v.2.form, act⟩ : Arm IdentityAction)
    refine ⟨⟨rfl, Entry.read?_variantCode s v, hmatched⟩, hstored.trans ?_, hdelegate⟩
    obtain ⟨name, variant⟩ := v
    constructor
    · rintro ⟨fields, rfl⟩
      exact ⟨fields, true, rfl, inside_variantCode_iff.mpr rfl⟩
    · rintro ⟨fields, hasId, rfl, hinside⟩
      exact ⟨fields, by rw [inside_variantCode_iff.mp hinside]⟩

theorem agrees_of_ofEntry {variants : List (String × Variant)} {plan : IdentityPlan}
    (hs : e.shape = .sum variants) (h : ofEntry s e = .ok plan) :
    ∃ arms, plan = .dispatch arms ∧ List.Forall₂ (Agrees s) variants arms := by
  simp only [ofEntry, hs] at h
  split at h
  · cases h
  · next arms harms =>
    cases h
    exact ⟨arms, rfl, (collect_eq_ok_iff.mp harms).imp fun _ _ => agrees_of_arm⟩

end IdentityPlan

/-! ### Positions -/

namespace PositionPlan

variable {s : Schema} {p : Positions} {strict : Bool} {e : Entry}

/-- The field of a position: `span` if that is one, or else the first that is. -/
structure IsPositionField (fields : Fields) (f : String) : Prop where
  mem : (f, .position) ∈ fields
  preferred : ("span", .position) ∈ fields → f = "span"
  first : ("span", .position) ∉ fields → ∃ before after,
    fields = before ++ (f, .position) :: after ∧ ∀ g ∈ before, g.2 ≠ .position

/-- An arm of the position does what its variant asks for. -/
structure Agrees (s : Schema) (v : String × Variant) (a : Arm PositionAction) : Prop
    extends IsArmOf s v "Self::" a.variant a.form (armText a) where
  payload : a.action = .payload ↔ v.2 = .wrap .position
  field : ∀ f, a.action = .field f ↔
    ∃ fields hasId, v.2 = .struct fields hasId ∧ IsPositionField fields f
  none : a.action = .none → ∀ fields hasId, v.2 = .struct fields hasId →
    ∀ f ∈ fields, f.2 ≠ .position

theorem read?_armText (a : Arm PositionAction) :
    PatternForm.read? ("Self::" ++ a.variant) (armText a) = some a.form := by
  unfold armText
  split <;> exact a.read?_text ..

/-- The names of the fields that are positions. -/
theorem mem_candidates {fields : Fields} {f : String} :
    f ∈ (fields.filter (·.2.isPosition)).map Prod.fst ↔ (f, .position) ∈ fields := by
  simp [List.mem_map, List.mem_filter]

theorem fieldOf?_of_span {fields : Fields} (h : ("span", .position) ∈ fields) :
    fieldOf? fields = some "span" := by
  unfold fieldOf?
  cases hfind : ((fields.filter (·.2.isPosition)).map Prod.fst).find? (· == "span") with
  | none => exact absurd (List.find?_eq_none.mp hfind _ (mem_candidates.mpr h)) (by simp)
  | some g =>
    have hg : g = "span" := by simpa using List.find?_some hfind
    simp only [hfind, Option.some_or, hg]

theorem fieldOf?_of_no_span {fields : Fields} (h : ("span", .position) ∉ fields) :
    fieldOf? fields = (fields.find? (·.2.isPosition)).map Prod.fst := by
  have hfind : ((fields.filter (·.2.isPosition)).map Prod.fst).find? (· == "span") = none := by
    rw [List.find?_eq_none]
    intro f hf hspan
    rw [beq_iff_eq.mp hspan, mem_candidates] at hf
    exact h hf
  rw [fieldOf?, hfind, Option.none_or, List.head?_map, List.head?_filter]

theorem fieldOf?_eq_some_iff {fields : Fields} {f : String} :
    fieldOf? fields = some f ↔ IsPositionField fields f := by
  by_cases hspan : ("span", .position) ∈ fields
  · rw [fieldOf?_of_span hspan, Option.some_inj]
    constructor
    · rintro rfl
      exact ⟨hspan, fun _ => rfl, fun h => absurd hspan h⟩
    · intro h
      exact (h.preferred hspan).symm
  · rw [fieldOf?_of_no_span hspan, Option.map_eq_some_iff]
    constructor
    · rintro ⟨⟨g, t⟩, hfind, rfl⟩
      obtain ⟨ht, before, after, rfl, hbefore⟩ := List.find?_eq_some_iff_append.mp hfind
      obtain rfl := TypeExpr.isPosition_iff.mp ht
      refine ⟨by simp, fun h => absurd h hspan, fun _ => ⟨before, after, rfl, ?_⟩⟩
      simpa [← TypeExpr.isPosition_iff] using hbefore
    · intro h
      obtain ⟨before, after, rfl, hbefore⟩ := h.first hspan
      refine ⟨_, List.find?_eq_some_iff_append.mpr ⟨rfl, before, after, rfl, ?_⟩, rfl⟩
      simpa [← TypeExpr.isPosition_iff] using hbefore

theorem action_eq_payload_iff {v : Variant} : action s p v = .payload ↔ v = .wrap .position := by
  cases v with
  | unit => simp [action]
  | wrap t =>
    simp only [action, Variant.wrap.injEq, ← TypeExpr.isPosition_iff]
    split
    · next ht => simp [ht]
    · next ht => split <;> simp [ht]
  | struct fields hasId =>
    simp only [action]
    split <;> simp

theorem action_eq_field_iff {v : Variant} {f : String} : action s p v = .field f ↔
    ∃ fields hasId, v = .struct fields hasId ∧ IsPositionField fields f := by
  cases v with
  | unit => simp [action]
  | wrap t =>
    simp only [action, reduceCtorEq, false_and, exists_false, iff_false]
    repeat' split
    all_goals simp
  | struct fields hasId =>
    simp only [action, Variant.struct.injEq, ← fieldOf?_eq_some_iff]
    cases hf : fieldOf? fields <;> simp [hf]

theorem ne_position_of_action {fields : Fields} {hasId : Bool}
    (h : action s p (.struct fields hasId) = .none) : ∀ f ∈ fields, f.2 ≠ .position := by
  cases hf : fieldOf? fields with
  | some f => simp [action, hf] at h
  | none => simpa [← TypeExpr.isPosition_iff] using fieldOf?_eq_none_iff.mp hf

theorem agrees_of_arm {v : String × Variant} {a : Arm PositionAction}
    (h : arm s p strict e v = .ok a) : Agrees s v a := by
  unfold arm at h
  split at h
  · cases h
  · cases h
    have hmatched := read?_armText (⟨v.1, v.2.form, action s p v.2⟩ : Arm PositionAction)
    refine ⟨⟨rfl, Entry.read?_variantCode s v, hmatched⟩, action_eq_payload_iff,
      fun f => action_eq_field_iff, ?_⟩
    intro hnone fields hasId hv
    have haction : action s p v.2 = .none := hnone
    rw [hv] at haction
    exact ne_position_of_action haction

theorem agrees_of_ofEntry {variants : List (String × Variant)} {plan : PositionPlan}
    (hs : e.shape = .sum variants) (h : ofEntry s p strict e = .ok plan) :
    ∃ arms, plan = .dispatch arms ∧ List.Forall₂ (Agrees s) variants arms := by
  simp only [ofEntry, hs] at h
  split at h
  · cases h
  · next arms harms =>
    cases h
    exact ⟨arms, rfl, (collect_eq_ok_iff.mp harms).imp fun _ _ => agrees_of_arm⟩

end PositionPlan

/-! ### Children -/

def ArmPattern.form : ArmPattern → PatternForm
  | ignored form => form
  | payload => .tuple
  | fields _ => .struct

theorem VariantWalk.read?_patternText (type : String) (v : VariantWalk) (rest : String)
    (h : ∃ after, rest.toList = ' ' :: '=' :: after) :
    PatternForm.read? (type ++ "::" ++ v.variant) (v.patternText type ++ rest) =
      some v.pattern.form := by
  obtain ⟨after, hafter⟩ := h
  have hlist {text : String} {cs : List Char} (htext : text.toList =
      type.toList ++ "::".toList ++ v.variant.toList ++ cs) :
      PatternForm.read? (type ++ "::" ++ v.variant) text = PatternForm.ofRest? cs :=
    PatternForm.read?_of_toList (by simpa using htext)
  rw [patternText]
  cases v.pattern with
  | ignored form =>
    cases form <;> rw [hlist (by simp [ArmPattern.text, hafter]; rfl)] <;> rfl
  | payload => rw [hlist (by simp [ArmPattern.text]; rfl)]; rfl
  | fields bindings => rw [hlist (by simp [ArmPattern.text]; rfl)]; rfl

theorem VariantWalk.read?_code (type : String) (v : VariantWalk) :
    PatternForm.read? (type ++ "::" ++ v.variant) (v.code type).head = some v.pattern.form := by
  unfold code
  split <;> exact v.read?_patternText type _ ⟨_, rfl⟩

namespace VariantWalk

variable {s : Schema} {e : Entry} {refs : List ChildRef}

/-- The fields that an arm goes over, in order. -/
def walked (arm : VariantWalk) : List String :=
  match arm.body with
  | .fields walks => walks.map Walk.field
  | _ => []

/-- An arm of the children of an entry does what its variant asks for. -/
structure Agrees (s : Schema) (e : Entry) (v : String × Variant) (arm : VariantWalk) : Prop
    extends IsArmOf s v (e.displayName ++ "::") arm.variant arm.form
      (arm.code e.displayName).head where
  /-- Of the fields that are referred to, the arm goes over those of its variant. -/
  walks : ∀ refs fields hasId, e.children = some (.refs refs) → v.2 = .struct fields hasId →
    arm.walked = ChildrenPlan.walkedFields refs fields

theorem form_of_payloadBody {name : String} {v : Variant} {body : ArmBody}
    (h : ChildrenPlan.payloadBody s e name v = .ok body) :
    (VariantWalk.mk name v.form body).pattern.form = v.form := by
  cases v with
  | unit => cases h; rfl
  | struct fields hasId => cases h
  | wrap t =>
    simp only [ChildrenPlan.payloadBody] at h
    split at h
    · cases h; rfl
    · obtain ⟨a, -, rfl⟩ := map_eq_ok_iff.mp h
      rfl

theorem form_of_refsBody {name : String} {v : Variant} {body : ArmBody}
    (h : ChildrenPlan.refsBody s e refs v = .ok body) :
    (VariantWalk.mk name v.form body).pattern.form = v.form := by
  cases v with
  | unit => cases h; rfl
  | wrap t => cases h; rfl
  | struct fields hasId =>
    obtain ⟨walks, -, rfl⟩ := map_eq_ok_iff.mp h
    cases walks <;> rfl

theorem walked_of_refsBody {name : String} {form : PatternForm} {fields : Fields} {hasId : Bool}
    {body : ArmBody} (h : ChildrenPlan.refsBody s e refs (.struct fields hasId) = .ok body) :
    walked ⟨name, form, body⟩ = ChildrenPlan.walkedFields refs fields := by
  obtain ⟨walks, hwalks, rfl⟩ := map_eq_ok_iff.mp h
  have hbindings := congrArg (List.map Prod.fst) (ChildrenPlan.bindings_of_collect hwalks)
  rw [ChildrenPlan.map_fst_declared] at hbindings
  have hfields : walks.map Walk.field = ChildrenPlan.walkedFields refs fields := by
    simpa [Function.comp_def] using hbindings
  cases walks with
  | nil => exact hfields
  | cons w ws => exact hfields

theorem matched_of_form (type : String) (arm : VariantWalk) (h : arm.pattern.form = arm.form) :
    PatternForm.read? (type ++ "::" ++ arm.variant) (arm.code type).head = some arm.form := by
  rw [read?_code, h]

end VariantWalk

namespace ChildrenPlan

variable {s : Schema} {e : Entry}

theorem agrees_of_ofEntry {variants : List (String × Variant)} {plan : ChildrenPlan}
    (hs : e.shape = .sum variants) (hc : e.children.isSome = true)
    (h : ofEntry s e = .ok plan) :
    ∃ arms, plan = .variants arms ∧ List.Forall₂ (VariantWalk.Agrees s e) variants arms := by
  obtain ⟨spec, hspec⟩ := Option.isSome_iff_exists.mp hc
  cases spec with
  | variants =>
    simp only [ofEntry, hspec, hs] at h
    obtain ⟨arms, harms, rfl⟩ := map_eq_ok_iff.mp h
    refine ⟨arms, rfl, (collect_eq_ok_iff.mp harms).imp fun v arm hv => ?_⟩
    obtain ⟨body, hbody, rfl⟩ := map_eq_ok_iff.mp hv
    have hmatched := VariantWalk.matched_of_form e.displayName ⟨v.1, v.2.form, body⟩
      (VariantWalk.form_of_payloadBody hbody)
    refine ⟨⟨rfl, Entry.read?_variantCode s v, hmatched⟩, ?_⟩
    intro refs fields hasId hrefs
    cases hspec.symm.trans hrefs
  | refs refs =>
    simp only [ofEntry, hspec, hs] at h
    obtain ⟨arms, harms, rfl⟩ := map_eq_ok_iff.mp h
    refine ⟨arms, rfl, (collect_eq_ok_iff.mp harms).imp fun v arm hv => ?_⟩
    obtain ⟨body, hbody, rfl⟩ := map_eq_ok_iff.mp hv
    have hmatched := VariantWalk.matched_of_form e.displayName ⟨v.1, v.2.form, body⟩
      (VariantWalk.form_of_refsBody hbody)
    refine ⟨⟨rfl, Entry.read?_variantCode s v, hmatched⟩, ?_⟩
    intro refs' fields hasId hrefs hstruct
    cases hspec.symm.trans hrefs
    rw [hstruct] at hbody
    exact VariantWalk.walked_of_refsBody hbody

/-- A reference of a sum that passes the checks is to a field of some variant. -/
theorem exists_variant_of_check {imported : List String} {variants : List (String × Variant)}
    {refs : List ChildRef} (hc : s.check imported = .ok ()) (he : e ∈ s.entries)
    (hs : e.shape = .sum variants) (hrefs : e.children = some (.refs refs)) {r : ChildRef}
    (hr : r ∈ refs) :
    ∃ name fields hasId t, (name, .struct fields hasId) ∈ variants ∧
      fields.lookup r.field = some t := by
  have hchildren := (then_eq_ok_iff.mp (Schema.checkChildren_of_check hc he hrefs)).2
  simp only [hs, forEach_eq_ok_iff] at hchildren
  have hchild := (then_eq_ok_iff.mp (then_eq_ok_iff.mp (hchildren r hr)).2).2
  have hne : Entry.variantTypes variants r.field ≠ [] := by
    simpa [require_eq_ok_iff] using hchild
  obtain ⟨t, ht⟩ := List.exists_mem_of_ne_nil _ hne
  obtain ⟨⟨name, variant⟩, hv, hlookup⟩ := List.mem_filterMap.mp ht
  cases variant with
  | unit => cases hlookup
  | wrap u => cases hlookup
  | struct fields hasId => exact ⟨name, fields, hasId, t, hv, hlookup⟩

theorem exists_walked {imported : List String} {variants : List (String × Variant)}
    {refs : List ChildRef} {arms : List VariantWalk} (hc : s.check imported = .ok ())
    (he : e ∈ s.entries) (hs : e.shape = .sum variants) (hrefs : e.children = some (.refs refs))
    (harms : List.Forall₂ (VariantWalk.Agrees s e) variants arms) {r : ChildRef}
    (hr : r ∈ traversed refs) : ∃ arm ∈ arms, r.field ∈ arm.walked := by
  obtain ⟨name, fields, hasId, t, hv, ht⟩ :=
    exists_variant_of_check hc he hs hrefs (List.mem_filter.mp hr).1
  obtain ⟨arm, harm, hagrees⟩ := exists_of_mem_forall₂ harms hv
  refine ⟨arm, harm, ?_⟩
  rw [hagrees.walks refs fields hasId hrefs rfl, walkedFields, List.mem_filter]
  exact ⟨List.mem_map_of_mem hr, by simp [ht]⟩

end ChildrenPlan

/-- The definition of a sum and its matches agree, variant by variant. -/
theorem Entry.dispatches_agree {s : Schema} {p : Positions} {strict : Bool} {e : Entry}
    {variants : List (String × Variant)} {k : KindPlan} {plan : ChildrenPlan}
    (hs : e.shape = .sum variants) (hk : KindPlan.ofEntry s p strict e = .ok k)
    (hplan : ChildrenPlan.ofEntry s e = .ok plan) :
    e.definition s = .line e.derivesText :: .openBlock ("pub enum " ++ e.displayName ++ " \x7b") ::
        variants.flatMap (variantCode s) ++ [.closeBlock "\x7d"] ∧
      (e.participates = true → ∃ arms, k.identity = some (.dispatch arms) ∧
        List.Forall₂ (IdentityPlan.Agrees s) variants arms) ∧
      (p.contains e.name = true → ∃ arms, k.position = some (.dispatch arms) ∧
        List.Forall₂ (PositionPlan.Agrees s) variants arms) ∧
      (e.children.isSome = true → ∃ arms, plan = .variants arms ∧
        List.Forall₂ (VariantWalk.Agrees s e) variants arms ∧
        ∀ imported refs, s.check imported = .ok () → e ∈ s.entries →
          e.children = some (.refs refs) →
          ∀ r ∈ ChildrenPlan.traversed refs, ∃ arm ∈ arms, r.field ∈ arm.walked) := by
  obtain ⟨-, hidentity, hposition⟩ := KindPlan.ofEntry_eq_ok_iff.mp hk
  refine ⟨by simp only [definition, hs], fun hpart => ?_, fun hpos => ?_, fun hsome => ?_⟩
  · rw [KindPlan.identityOf, if_pos hpart] at hidentity
    obtain ⟨i, hi, hki⟩ := map_eq_ok_iff.mp hidentity
    obtain ⟨arms, rfl, harms⟩ := IdentityPlan.agrees_of_ofEntry hs hi
    exact ⟨arms, hki.symm, harms⟩
  · rw [KindPlan.positionOf, if_pos hpos] at hposition
    obtain ⟨q, hq, hkq⟩ := map_eq_ok_iff.mp hposition
    obtain ⟨arms, rfl, harms⟩ := PositionPlan.agrees_of_ofEntry hs hq
    exact ⟨arms, hkq.symm, harms⟩
  · obtain ⟨arms, rfl, harms⟩ := ChildrenPlan.agrees_of_ofEntry hs hsome hplan
    exact ⟨arms, rfl, harms, fun imported refs hc he hrefs r hr =>
      ChildrenPlan.exists_walked hc he hs hrefs harms hr⟩

namespace Mixed

/-! A sum with variants of all forms, two of which have the field that is referred to. -/

def leaf : Entry :=
  { name := "Leaf", displayName := "Leaf", shape := .product [("span", .position)] }

def variants : List (String × Variant) :=
  [("Missing", .unit), ("At", .wrap .position), ("One", .wrap (.named "Leaf")),
    ("Many", .struct [("open", .position), ("items", .wrap .sequence (.named "Leaf"))] true),
    ("Loose", .struct [("items", .named "Leaf"), ("skipped", .named "Leaf")] false)]

def any : Entry :=
  { name := "Any", displayName := "Any", shape := .sum variants,
    children := some (.refs [⟨"skipped", true, .excluded⟩, ⟨"items", true, .required⟩]) }

def schema : Schema := ⟨[leaf, any], by decide⟩

def identity : List (Arm IdentityAction) :=
  [⟨"Missing", .unit, .none⟩, ⟨"At", .tuple, .none⟩, ⟨"One", .tuple, .delegate⟩,
    ⟨"Many", .struct, .stored⟩, ⟨"Loose", .struct, .none⟩]

def position : List (Arm PositionAction) :=
  [⟨"Missing", .unit, .none⟩, ⟨"At", .tuple, .payload⟩, ⟨"One", .tuple, .forward⟩,
    ⟨"Many", .struct, .field "open"⟩, ⟨"Loose", .struct, .none⟩]

def children : List VariantWalk :=
  [⟨"Missing", .unit, .empty⟩, ⟨"At", .tuple, .empty⟩, ⟨"One", .tuple, .empty⟩,
    ⟨"Many", .struct, .fields [⟨"items", some "items", [.sequence]⟩]⟩,
    ⟨"Loose", .struct, .fields [⟨"items", some "items", []⟩]⟩]

theorem any_dispatches_agree :
    List.Forall₂ (IdentityPlan.Agrees schema) variants identity ∧
      List.Forall₂ (PositionPlan.Agrees schema) variants position ∧
      List.Forall₂ (VariantWalk.Agrees schema any) variants children ∧
      ∃ arm ∈ children, "items" ∈ arm.walked := by
  have hk : KindPlan.ofEntry schema (Positions.analyze schema) false any =
      .ok ⟨any, some (.dispatch identity), some (.dispatch position)⟩ := by decide +kernel
  have hp : ChildrenPlan.ofEntry schema any = .ok (.variants children) := by decide +kernel
  have hc : schema.check ["NodeId", "HasId", "Span"] = .ok () := by decide +kernel
  obtain ⟨-, hidentity, hposition, hchildren⟩ := Entry.dispatches_agree rfl hk hp
  obtain ⟨_, ⟨⟩, hidentity⟩ := hidentity rfl
  obtain ⟨_, ⟨⟩, hposition⟩ := hposition (by decide +kernel)
  obtain ⟨_, ⟨⟩, hchildren, hwalked⟩ := hchildren rfl
  refine ⟨hidentity, hposition, hchildren, ?_⟩
  exact hwalked _ _ hc (by decide) rfl ⟨"items", true, .required⟩ (by decide)

end Mixed

namespace Declared

/-! A variant that stores no identity, with a field of its own that is called `id`. -/

def draft : Draft where
  entries := [
    ("NodeId", .aliasOf "u32"),
    ("U", .definition [("as", .text "Enum"),
      ("V", .mapping [("node", .flag false), ("id", .text "NodeId")])])]
  nodup := by decide

def variant : String × Variant := ("V", .struct [("id", .named "NodeId")] false)

def union : Entry := { name := "U", displayName := "U", shape := .sum [variant] }

def schema : Schema where
  entries := [
    { name := "NodeId", displayName := "NodeId", shape := .aliasOf (.named "u32") }, union]
  nodup := by decide

def arm : Arm IdentityAction := ⟨"V", .struct, .none⟩

/-- The field is in the definition of the variant, yet the arm does not read it. -/
theorem declared_id_not_stored :
    Schema.ofDraft draft = .ok schema ∧
      schema.check (Artifact.importedNames schema {}) = .ok () ∧ union ∈ schema.entries ∧
      KindPlan.ofEntry schema (Positions.analyze schema) false union =
        .ok ⟨union, some (.dispatch [arm]), none⟩ ∧
      ChildrenPlan.ofEntry schema union = .ok .none ∧
      ¬ (arm.action = .stored ↔
        .line "id: NodeId," ∈ (Entry.variantCode schema variant).inside) := by
  have hs : Schema.ofDraft draft = .ok schema := Schema.ofDraft_eq_ok (by decide +kernel)
  refine ⟨hs, by decide +kernel, by decide, by decide +kernel, by decide +kernel, ?_⟩
  intro h
  have hstored : arm.action = .stored := h.mpr List.mem_cons_self
  cases hstored

end Declared

end TreeSchema
