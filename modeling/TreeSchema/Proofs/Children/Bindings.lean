import TreeSchema.Artifact
import TreeSchema.Proofs.Children.Meaning

/-!
# The variables of a struct pattern

An arm over the fields of a variant binds each of them to a variable, and keeps these variables
apart from the accessor's own by a mark at the end. That leaves two ways for a pattern to bind
something twice: a field that is referred to twice, and a field whose name is the marked name of
another.
-/

namespace TreeSchema

open Checked

namespace ChildrenPlan

variable {s : Schema} {e : Entry} {arms : List VariantWalk} {arm : VariantWalk}
  {bindings : List (String × String)}

/-- Two fields get one variable only if one has the marked name of the other. -/
theorem bindingOf_eq_iff {f g : String} : bindingOf f = bindingOf g ↔
    f = g ∨ (f ∈ ownVariables ∧ g = f ++ "_") ∨ (g ∈ ownVariables ∧ f = g ++ "_") := by
  constructor
  · intro h
    by_cases hf : f ∈ ownVariables
    · by_cases hg : g ∈ ownVariables
      · rw [bindingOf_of_mem hf, bindingOf_of_mem hg] at h
        exact .inl ((String.append_left_inj "_").mp h)
      · rw [bindingOf_of_mem hf, bindingOf_of_notMem hg] at h
        exact .inr (.inl ⟨hf, h.symm⟩)
    · by_cases hg : g ∈ ownVariables
      · rw [bindingOf_of_notMem hf, bindingOf_of_mem hg] at h
        exact .inr (.inr ⟨hg, h⟩)
      · rw [bindingOf_of_notMem hf, bindingOf_of_notMem hg] at h
        exact .inl h
  · rintro (rfl | ⟨hf, rfl⟩ | ⟨hg, rfl⟩)
    · rfl
    · rw [bindingOf_of_mem hf, bindingOf_of_notMem (marked_notMem_ownVariables f hf)]
    · rw [bindingOf_of_mem hg, bindingOf_of_notMem (marked_notMem_ownVariables g hg)]

/-- Variables are different when fields are, and none of these has the marked name of another. -/
theorem nodup_map_bindingOf_iff {l : List String} : (l.map bindingOf).Nodup ↔
    l.Nodup ∧ ∀ own ∈ ownVariables, own ∈ l → own ++ "_" ∉ l := by
  constructor
  · intro h
    refine ⟨h.of_map, fun own hown hl hmarked => ?_⟩
    have heq : bindingOf own = bindingOf (own ++ "_") :=
      bindingOf_eq_iff.mpr (.inr (.inl ⟨hown, rfl⟩))
    have hsame : own = own ++ "_" := List.inj_on_of_nodup_map h hl hmarked heq
    exact marked_notMem_ownVariables own hown (hsame ▸ hown)
  · rintro ⟨hnodup, hmarked⟩
    refine hnodup.map_on fun f hf g hg heq => ?_
    rcases bindingOf_eq_iff.mp heq with h | ⟨hown, rfl⟩ | ⟨hown, rfl⟩
    · exact h
    · exact absurd hg (hmarked f hown hf)
    · exact absurd hf (hmarked g hown hg)

/-- The fields of a variant that are referred to and not excluded, in the order of the
references. -/
def walkedFields (refs : List ChildRef) (fields : Fields) : List String :=
  ((traversed refs).map ChildRef.field).filter fun f => (fields.lookup f).isSome

theorem map_fst_declared (refs : List ChildRef) (fields : Fields) :
    (declared refs fields).map Prod.fst = walkedFields refs fields := by
  unfold declared walkedFields
  induction traversed refs with
  | nil => rfl
  | cons child rest ih =>
    cases h : fields.lookup child.field <;> simp [h, ih]

theorem ofEntry_eq_variants_iff : ofEntry s e = .ok (.variants arms) ↔
    ∃ variants, e.shape = .sum variants ∧
      ((e.children = some .variants ∧
          collect (fun v => variantArm (payloadBody s e v.1) v) variants = .ok arms) ∨
        ∃ refs, e.children = some (.refs refs) ∧
          collect (variantArm (refsBody s e refs)) variants = .ok arms) := by
  unfold ofEntry
  cases hc : e.children with
  | none => simp
  | some spec => cases hs : e.shape <;> cases spec <;> simp [map_eq_ok_iff]

theorem payloadBody_ne_fields {name : String} {v : Variant} {walks : List Walk} :
    payloadBody s e name v ≠ .ok (.fields walks) := by
  intro h
  cases v with
  | unit => cases h
  | struct fields hasId => cases h
  | wrap t =>
    simp only [payloadBody] at h
    split at h
    · cases h
    · obtain ⟨a, -, ha⟩ := map_eq_ok_iff.mp h
      cases ha

theorem collect_of_refsBody {refs : List ChildRef} {v : Variant} {walks : List Walk}
    (h : refsBody s e refs v = .ok (.fields walks)) : ∃ fields hasId, v = .struct fields hasId ∧
      collect (variantWalk s e) (declared refs fields) = .ok walks := by
  cases v with
  | unit => cases h
  | wrap t => cases h
  | struct fields hasId =>
    obtain ⟨found, hfound, hbody⟩ := map_eq_ok_iff.mp h
    cases found with
    | nil => cases hbody
    | cons w ws => cases hbody; exact ⟨fields, hasId, rfl, hfound⟩

/-- Walks over fields come from references, one for each that the variant has a field for. -/
theorem collect_of_arm (hp : ofEntry s e = .ok (.variants arms)) (harm : arm ∈ arms)
    {walks : List Walk} (hb : arm.body = .fields walks) :
    ∃ variants refs fields hasId, e.shape = .sum variants ∧ e.children = some (.refs refs) ∧
      (arm.variant, .struct fields hasId) ∈ variants ∧
      collect (variantWalk s e) (declared refs fields) = .ok walks := by
  obtain ⟨variants, hs, ⟨-, harms⟩ | ⟨refs, hc, harms⟩⟩ := ofEntry_eq_variants_iff.mp hp
  · obtain ⟨v, -, hv⟩ := exists_of_mem_collect harms harm
    obtain ⟨body, hbody, rfl⟩ := map_eq_ok_iff.mp hv
    subst hb
    exact absurd hbody payloadBody_ne_fields
  · obtain ⟨⟨name, variant⟩, hmem, hv⟩ := exists_of_mem_collect harms harm
    obtain ⟨body, hbody, rfl⟩ := map_eq_ok_iff.mp hv
    subst hb
    obtain ⟨fields, hasId, rfl, hwalks⟩ := collect_of_refsBody hbody
    exact ⟨variants, refs, fields, hasId, hs, hc, hmem, hwalks⟩

theorem bindings_of_collect {fields : Fields} {walks : List Walk}
    (h : collect (variantWalk s e) fields = .ok walks) :
    walks.map (fun w => (w.field, w.var)) =
      (fields.map Prod.fst).map fun f => (f, bindingOf f) := by
  induction collect_eq_ok_iff.mp h with
  | nil => rfl
  | cons hwalk hrest ih =>
    obtain ⟨a, -, rfl⟩ := map_eq_ok_iff.mp hwalk
    exact congrArg (List.cons _) (ih (collect_eq_ok_iff.mpr hrest))

theorem walks_of_pattern (h : arm.pattern = .fields bindings) :
    ∃ walks, arm.body = .fields walks ∧ bindings = walks.map fun w => (w.field, w.var) := by
  unfold VariantWalk.pattern at h
  split at h
  · cases h
  · cases h
  · next walks hbody => cases h; exact ⟨walks, hbody, rfl⟩

/-- What the pattern of an arm over fields binds: the fields of its variant that are referred to, in
order and once for each reference, to variables that are none of the accessor's own. No field and
no variable is bound twice just when no field is referred to twice and none has the marked name of
another. -/
theorem pattern_bindings_exact (hp : ofEntry s e = .ok (.variants arms)) (harm : arm ∈ arms)
    (hb : arm.pattern = .fields bindings) :
    ∃ variants refs fields hasId, e.shape = .sum variants ∧ e.children = some (.refs refs) ∧
      (arm.variant, .struct fields hasId) ∈ variants ∧
      bindings = (walkedFields refs fields).map (fun f => (f, bindingOf f)) ∧
      (∀ b ∈ bindings, b.2 ∉ ownVariables) ∧
      ((bindings.map Prod.fst).Nodup ∧ (bindings.map Prod.snd).Nodup ↔
        (walkedFields refs fields).Nodup ∧ ∀ own ∈ ownVariables,
          own ∈ walkedFields refs fields → own ++ "_" ∉ walkedFields refs fields) := by
  obtain ⟨walks, hbody, rfl⟩ := walks_of_pattern hb
  obtain ⟨variants, refs, fields, hasId, hs, hc, hv, hwalks⟩ := collect_of_arm hp harm hbody
  rw [bindings_of_collect hwalks, map_fst_declared]
  refine ⟨variants, refs, fields, hasId, hs, hc, hv, rfl, ?_, ?_⟩
  · intro b hb
    obtain ⟨f, -, rfl⟩ := List.mem_map.mp hb
    exact bindingOf_notMem_ownVariables f
  · have hvars : ((walkedFields refs fields).map fun f => (f, bindingOf f)).map Prod.snd =
        (walkedFields refs fields).map bindingOf := List.map_map
    have hfields : ((walkedFields refs fields).map fun f => (f, bindingOf f)).map Prod.fst =
        walkedFields refs fields := by
      rw [List.map_map]
      exact List.map_id _
    rw [hfields, hvars, nodup_map_bindingOf_iff]
    exact and_iff_right_of_imp And.left

end ChildrenPlan

/-- The pattern of the arm that goes over two fields, both with variables of their own. -/
theorem Branches.many_pattern_bindings : ∃ bindings,
    (VariantWalk.mk "Many" .struct (.fields walks)).pattern = .fields bindings ∧
      (bindings.map Prod.fst).Nodup ∧ (bindings.map Prod.snd).Nodup ∧
      ∀ b ∈ bindings, b.2 ∉ ChildrenPlan.ownVariables := by
  have hp : ChildrenPlan.ofEntry schema branch = .ok plan := by decide +kernel
  obtain ⟨variants, refs, fields, hasId, hs, hc, hv, -, hown, hexact⟩ :=
    ChildrenPlan.pattern_bindings_exact hp List.mem_cons_self rfl
  cases hs
  cases hc
  obtain ⟨rfl, -⟩ : fields = _ ∧ hasId = _ := by simpa using hv
  obtain ⟨hfields, hvars⟩ := hexact.mpr (by decide)
  exact ⟨_, rfl, hfields, hvars, hown⟩

/-- A draft that passes the check with the default imports, and for which a pattern is written that
binds a variable twice. -/
def Draft.Clashes (d : Draft) (pattern : String) : Prop :=
  ∃ s e arms arm bindings, Schema.ofDraft d = .ok s ∧
    s.check (Artifact.importedNames s {}) = .ok () ∧ e ∈ s.entries ∧
    ChildrenPlan.ofEntry s e = .ok (.variants arms) ∧ arm ∈ arms ∧
    arm.patternText e.displayName = pattern ∧ arm.pattern = .fields bindings ∧
    ¬ (bindings.map Prod.snd).Nodup

namespace Clashing

/-! A sum of one variant whose fields hold leaves, with some names for the fields and some
references to them. -/

def draft (fields refs : List String) : Draft where
  entries := [
    ("NodeId", .aliasOf "u32"),
    ("Leaf", .definition [("x", .text "u8")]),
    ("U", .definition [("as", .text "Enum"),
      ("V", .mapping (fields.map fun f => (f, .text "Leaf"))),
      ("children", .list (refs.map fun f => "self." ++ f))])]
  nodup := by simp

def union (fields refs : List String) : Entry :=
  { name := "U", displayName := "U",
    shape := .sum [("V", .struct (fields.map fun f => (f, .named "Leaf")) true)],
    children := some (.refs (refs.map fun f => ⟨f, true, .required⟩)) }

def schema (fields refs : List String) : Schema where
  entries := [
    { name := "NodeId", displayName := "NodeId", shape := .aliasOf (.named "u32") },
    { name := "Leaf", displayName := "Leaf", shape := .product [("x", .named "u8")] },
    union fields refs]
  nodup := by simp [union]

def arm (bindings : List (String × String)) : VariantWalk :=
  ⟨"V", .struct, .fields (bindings.map fun b => ⟨b.1, some b.2, []⟩)⟩

theorem clashes_of_bindings {fields refs : List String} (bindings : List (String × String))
    {pattern : String}
    (hs : Schema.parseEntries (draft fields refs).entries = .ok (schema fields refs).entries)
    (hc : (schema fields refs).check (Artifact.importedNames (schema fields refs) {}) = .ok ())
    (hp : ChildrenPlan.ofEntry (schema fields refs) (union fields refs) =
      .ok (.variants [arm bindings]))
    (ht : (arm bindings).patternText "U" = pattern)
    (hn : ¬ (bindings.map Prod.snd).Nodup) : (draft fields refs).Clashes pattern := by
  have hpattern : (arm bindings).pattern = .fields bindings := by
    simp [arm, VariantWalk.pattern, Walk.var, Function.comp_def]
  exact ⟨schema fields refs, union fields refs, [arm bindings], arm bindings, bindings,
    Schema.ofDraft_eq_ok hs, hc, by simp [schema], hp, List.mem_cons_self, ht, hpattern, hn⟩

/-- A field that is referred to twice, and one that has the marked name of another. -/
theorem patterns_clash :
    (draft ["a"] ["a", "a"]).Clashes "U::V \x7b a, a, .. \x7d" ∧
      (draft ["children", "children_"] ["children", "children_"]).Clashes
        "U::V \x7b children: children_, children_, .. \x7d" := by
  constructor
  · exact clashes_of_bindings [("a", "a"), ("a", "a")] (by decide +kernel) (by decide +kernel)
      (by decide +kernel) (by decide +kernel) (by decide)
  · exact clashes_of_bindings [("children", "children_"), ("children_", "children_")]
      (by decide +kernel) (by decide +kernel) (by decide +kernel) (by decide +kernel) (by decide)

end Clashing

end TreeSchema
