import TreeSchema.Proofs.Order
import TreeSchema.Proofs.Source.Row

/-!
# What the configuration decides

A configuration decides whether an artifact is made, and what stands before its code: the header and
the imports. It does not reach the plans, so that all artifacts of a schema have the same code.
Asking for every position refuses more schemas, and importing more names refuses fewer.
-/

namespace TreeSchema

open Checked

/-! ### More imports -/

namespace Schema

variable {s : Schema} {imported more : List String} {e : Entry} {n : String}

theorem isKnown_mono (h : imported ⊆ more) (hn : s.isKnown imported n = true) :
    s.isKnown more n = true := by
  simp only [isKnown, Bool.or_eq_true, List.contains_iff_mem] at hn ⊢
  exact hn.imp_left fun hn => hn.imp_right fun hm => h hm

theorem checkEntry_mono (h : imported ⊆ more) (hc : s.checkEntry imported e = .ok ()) :
    s.checkEntry more e = .ok () := by
  obtain ⟨href, hrest⟩ := then_eq_ok_iff.mp hc
  refine then_eq_ok_iff.mpr ⟨?_, hrest⟩
  rw [checkReferences_eq_ok_iff] at href ⊢
  intro n hn
  exact ⟨isKnown_mono h (href n hn).1, (href n hn).2⟩

/-- A schema that passes its checks passes them with more imported names. -/
theorem check_mono (h : imported ⊆ more) (hc : s.check imported = .ok ()) :
    s.check more = .ok () := by
  obtain ⟨hnames, hentries, hrequired⟩ := check_eq_ok_iff.mp hc
  refine check_eq_ok_iff.mpr ⟨hnames, fun e he => checkEntry_mono h (hentries e he), ?_⟩
  rw [checkRequired_eq_ok_iff] at hrequired ⊢
  exact hrequired.imp_right fun hknown r hr => isKnown_mono h (hknown r hr)

end Schema

namespace Artifact

variable {s : Schema} {c : Config}

/-- The imports that stay are those whose names the schema does not define. -/
theorem mem_imports {path : String} : path ∈ imports s c ↔
    path ∈ c.imports ∧ (s.resolve (Name.lastSegment path)).isEmpty = true := by
  have hfold (l out : List String) : path ∈ l.foldl (fun out path =>
      if (s.resolve (Name.lastSegment path)).isEmpty && !out.contains path then out ++ [path]
      else out) out ↔
      path ∈ out ∨ path ∈ l ∧ (s.resolve (Name.lastSegment path)).isEmpty = true := by
    induction l generalizing out with
    | nil => simp
    | cons a l ih =>
      rw [List.foldl_cons, ih, List.mem_cons]
      by_cases ha : (s.resolve (Name.lastSegment a)).isEmpty = true
      · by_cases hout : a ∈ out
        · grind
        · grind
      · grind
  simpa [imports] using hfold c.imports []

theorem importedNames_mono {more : List String} (h : c.imports ⊆ more) :
    importedNames s c ⊆ importedNames s { c with imports := more } := by
  intro n hn
  obtain ⟨path, hpath, rfl⟩ := List.mem_map.mp hn
  obtain ⟨hmem, hfree⟩ := mem_imports.mp hpath
  exact List.mem_map_of_mem (mem_imports.mpr ⟨h hmem, hfree⟩)

theorem checkPositionTrait_mono {imported more : List String} {p : Positions}
    (h : imported ⊆ more) (hc : checkPositionTrait s imported p = .ok ()) :
    checkPositionTrait s more p = .ok () := by
  unfold checkPositionTrait at hc ⊢
  split at hc
  · rfl
  · rw [require_eq_ok_iff] at hc ⊢
    simp only [Bool.or_eq_true, List.contains_iff_mem] at hc ⊢
    exact hc.imp_left fun hm => h hm

theorem plan_mono {more : List String} {q : Plan} (h : c.imports ⊆ more) (hq : plan s c = .ok q) :
    plan s { c with imports := more } =
      .ok { q with imports := imports s { c with imports := more } } := by
  obtain ⟨hcheck, htrait, hkinds, hview, -⟩ := plan_eq_ok_iff.mp hq
  have hnames := importedNames_mono (s := s) h
  exact plan_eq_ok_iff.mpr ⟨Schema.check_mono hnames hcheck, checkPositionTrait_mono hnames htrait,
    hkinds, hview, rfl⟩

end Artifact

/-! ### Strict positions -/

namespace Checked

variable {ε α β : Type} {f g : α → Except ε β} {l : List α} {bs : List β}

/-- If one function succeeds where another does and the result is good, so do its lists. -/
theorem collect_restrict_iff {P : β → Prop} (h : ∀ a b, f a = .ok b ↔ g a = .ok b ∧ P b) :
    collect f l = .ok bs ↔ collect g l = .ok bs ∧ ∀ b ∈ bs, P b := by
  simp only [collect_eq_ok_iff, h]
  constructor
  · intro hf
    induction hf with
    | nil => simp
    | cons hab _ ih => exact ⟨.cons hab.1 ih.1, List.forall_mem_cons.mpr ⟨hab.2, ih.2⟩⟩
  · rintro ⟨hg, hP⟩
    induction hg with
    | nil => exact .nil
    | cons hab _ ih =>
      obtain ⟨hb, hbs⟩ := List.forall_mem_cons.mp hP
      exact .cons ⟨hab, hb⟩ (ih hbs)

end Checked

/-- Every variant has a position. -/
def PositionPlan.Complete : PositionPlan → Prop
  | .field _ => True
  | .dispatch arms => ∀ a ∈ arms, a.action ≠ .none

def KindPlan.Complete (k : KindPlan) : Prop := ∀ q ∈ k.position, q.Complete

namespace PositionPlan

variable {s : Schema} {p : Positions} {e : Entry}

theorem arm_strict_iff (v : String × Variant) (a : Arm PositionAction) :
    arm s p true e v = .ok a ↔ arm s p false e v = .ok a ∧ a.action ≠ .none := by
  unfold arm
  by_cases hnone : action s p v.2 = .none
  · grind
  · grind

theorem ofEntry_sum {strict : Bool} {q : PositionPlan} {variants : List (String × Variant)}
    (hs : e.shape = .sum variants) : ofEntry s p strict e = .ok q ↔
      ∃ arms, collect (arm s p strict e) variants = .ok arms ∧ .dispatch arms = q := by
  cases hcol : collect (arm s p strict e) variants with
  | error f => simp [ofEntry, hs, hcol]
  | ok arms => simp [ofEntry, hs, hcol]

/-- Strict plans are the complete ones. -/
theorem ofEntry_strict_iff {q : PositionPlan} :
    ofEntry s p true e = .ok q ↔ ofEntry s p false e = .ok q ∧ q.Complete := by
  cases hs : e.shape with
  | aliasOf t => simp [ofEntry, hs]
  | product fields =>
    cases hf : fieldOf? fields with
    | none => simp [ofEntry, hs, hf]
    | some f =>
      have hcomplete : (PositionPlan.field f).Complete := trivial
      simp only [ofEntry, hs, hf]
      constructor
      · rintro ⟨⟩
        exact ⟨rfl, hcomplete⟩
      · exact fun h => h.1
  | sum variants =>
    rw [ofEntry_sum hs, ofEntry_sum hs]
    have hcollect (arms : List (Arm PositionAction)) :
        collect (arm s p true e) variants = .ok arms ↔
          collect (arm s p false e) variants = .ok arms ∧ (PositionPlan.dispatch arms).Complete :=
      collect_restrict_iff arm_strict_iff
    constructor
    · rintro ⟨arms, harms, rfl⟩
      obtain ⟨hlenient, hcomplete⟩ := (hcollect arms).mp harms
      exact ⟨⟨arms, hlenient, rfl⟩, hcomplete⟩
    · rintro ⟨⟨arms, harms, rfl⟩, hcomplete⟩
      exact ⟨arms, (hcollect arms).mpr ⟨harms, hcomplete⟩, rfl⟩

end PositionPlan

namespace KindPlan

variable {s : Schema} {p : Positions}

theorem positionOf_strict_iff {e : Entry} {position : Option PositionPlan} :
    positionOf s p true e = .ok position ↔
      positionOf s p false e = .ok position ∧ ∀ q ∈ position, q.Complete := by
  unfold positionOf
  by_cases hp : p.contains e.name = true
  · simp only [if_pos hp, map_eq_ok_iff, PositionPlan.ofEntry_strict_iff]
    grind
  · simp only [if_neg hp]
    grind

theorem ofEntry_strict_iff (e : Entry) (k : KindPlan) :
    ofEntry s p true e = .ok k ↔ ofEntry s p false e = .ok k ∧ k.Complete := by
  simp only [ofEntry_eq_ok_iff, positionOf_strict_iff, Complete, and_assoc]

end KindPlan

namespace Artifact

variable {s : Schema} {c : Config}

theorem plan_strict_iff (c : Config) {q : Plan} : plan s { c with strict := true } = .ok q ↔
    plan s { c with strict := false } = .ok q ∧ ∀ k ∈ q.kinds, k.Complete := by
  have hkinds : collect (KindPlan.ofEntry s (Positions.analyze s) true) s.entries = .ok q.kinds ↔
      collect (KindPlan.ofEntry s (Positions.analyze s) false) s.entries = .ok q.kinds ∧
        ∀ k ∈ q.kinds, k.Complete := collect_restrict_iff KindPlan.ofEntry_strict_iff
  have hnames : importedNames s { c with strict := true } =
      importedNames s { c with strict := false } := rfl
  have himports : imports s { c with strict := true } = imports s { c with strict := false } := rfl
  simp only [plan_eq_ok_iff, hkinds, hnames, himports]
  tauto

/-- Strict mode makes the same plan or none. -/
theorem plan_lenient {q : Plan} (h : plan s c = .ok q) :
    plan s { c with strict := false } = .ok q := by
  cases hc : c.strict with
  | false => rwa [← hc]
  | true =>
    refine ((plan_strict_iff c).mp ?_).1
    rwa [← hc]

end Artifact

/-! ### What stands before the code -/

namespace Code

theorem text_line_cons {content : String} (h : content ≠ "") (code : Code) :
    text (.line content :: code) = content ++ ("\n" ++ text code) := by
  apply String.toList_inj.mp
  simp [toList_text, rows, Writer.row, h]

theorem text_blank_cons (code : Code) : text (.blank :: code) = "\n" ++ text code := by
  apply String.toList_inj.mp
  simp [toList_text, rows]

end Code

namespace Artifact

variable {s : Schema} {c : Config}

/-- The lines before the code, with the path of the schema and the imports. -/
def front (schemaPath : String) (imports : List String) : String :=
  "// This file is generated by astgen from " ++ schemaPath ++ ".\n" ++
    "// Do not make modifications to this file directly.\n\n" ++
    String.join (imports.map fun path => "use " ++ path ++ ";\n") ++ "use std::ptr::NonNull;\n\n"

/-- A literal that ends a line, with its line break. -/
theorem append_newline {a b : String} (h : a ++ "\n" = b) (rest : String) :
    a ++ ("\n" ++ rest) = b ++ rest := by rw [← String.append_assoc, h]

theorem text_importLines_append (imports : List String) (code : Code) :
    Code.text (importLines imports ++ code) =
      String.join (imports.map fun path => "use " ++ path ++ ";\n") ++
        ("use std::ptr::NonNull;\n\n" ++ Code.text code) := by
  induction imports with
  | nil =>
    change Code.text (.line "use std::ptr::NonNull;" :: .blank :: code) = _
    rw [Code.text_line_cons (by decide), Code.text_blank_cons, append_newline rfl,
      append_newline rfl]
    rfl
  | cons path imports ih =>
    have hmark (rest : String) : ";" ++ ("\n" ++ rest) = ";\n" ++ rest := append_newline rfl rest
    change Code.text (.line ("use " ++ path ++ ";") :: (importLines imports ++ code)) = _
    rw [Code.text_line_cons (by simp), ih]
    simp only [List.map_cons, String.join_cons, String.append_assoc, hmark]

theorem text_front_append (schemaPath : String) (imports : List String) (code : Code) :
    Code.text (header schemaPath ++ importLines imports ++ code) =
      front schemaPath imports ++ Code.text code := by
  have hmark (rest : String) : "." ++ ("\n" ++ rest) = ".\n" ++ rest := append_newline rfl rest
  have hnotice (rest : String) :
      "// Do not make modifications to this file directly." ++ ("\n" ++ ("\n" ++ rest)) =
        "// Do not make modifications to this file directly.\n\n" ++ rest := by
    have hline : "// Do not make modifications to this file directly." ++ "\n" ++ "\n" =
      "// Do not make modifications to this file directly.\n\n" := by decide +kernel
    rw [← String.append_assoc, ← String.append_assoc, hline]
  rw [List.append_assoc]
  change Code.text (.line ("// This file is generated by astgen from " ++ schemaPath ++ ".") ::
    .line "// Do not make modifications to this file directly." :: .blank ::
      (importLines imports ++ code)) = _
  rw [Code.text_line_cons (by simp), Code.text_line_cons (by simp), Code.text_blank_cons,
    text_importLines_append, String.append_assoc, String.append_assoc, hmark, hnotice]
  -- Closing with `simp` here would compare literals character by character.
  unfold front
  rewrite [String.append_assoc, String.append_assoc, String.append_assoc, String.append_assoc,
    String.append_assoc]
  exact rfl

/-- The code of every artifact of a schema. -/
def commonCode (s : Schema) : Code :=
  (s.entries.map (kindOf s false)).flatMap (KindPlan.code s) ++
    (ViewPlan.mk (s.participating.map (ViewPlan.caseOf s))).code

/-- An artifact differs from others only before its code. -/
theorem generate_eq_front {text : String} (h : generate s c = .ok text) :
    text = front c.schemaPath (imports s c) ++ Code.text (commonCode s) := by
  obtain ⟨q, hq, rfl⟩ := map_eq_ok_iff.mp h
  obtain ⟨-, -, -, -, himports⟩ := plan_eq_ok_iff.mp hq
  obtain ⟨-, -, hkinds, hview, -⟩ := plan_eq_ok_iff.mp (plan_lenient hq)
  have hk : q.kinds = s.entries.map (kindOf s false) :=
    eq_map_of_collect (fun e k => kindOf_eq) hkinds
  have hv : q.view.cases = s.participating.map (ViewPlan.caseOf s) :=
    eq_map_of_collect (fun e k => ViewPlan.caseOf_eq) (ViewPlan.cases_of_ofSchema hview)
  rw [← text_front_append, commonCode, ← hk, ← hv, ← himports]
  simp only [code, List.append_assoc]

/-- The configuration filters and never changes code. All artifacts of a schema have the same text
after the header and the imports. In strict mode there is an artifact just when there is one without
it and every variant of every sum with a position has one; it is the same artifact. Whatever is
accepted with some imports is accepted with more of them. -/
theorem configuration_only_filters (s : Schema) :
    (∃ body, ∀ c text, generate s c = .ok text →
      text = front c.schemaPath (imports s c) ++ body) ∧
    (∀ (c : Config) text, generate s { c with strict := true } = .ok text ↔
      generate s { c with strict := false } = .ok text ∧
        ∀ q, plan s { c with strict := false } = .ok q → ∀ k ∈ q.kinds, k.Complete) ∧
    ∀ (c : Config) more, c.imports ⊆ more → (∃ text, generate s c = .ok text) →
      ∃ text, generate s { c with imports := more } = .ok text := by
  refine ⟨⟨Code.text (commonCode s), fun c text => generate_eq_front⟩, fun c text => ?_, ?_⟩
  · constructor
    · intro h
      obtain ⟨q, hq, rfl⟩ := map_eq_ok_iff.mp h
      obtain ⟨hlenient, hcomplete⟩ := (plan_strict_iff c).mp hq
      refine ⟨map_eq_ok_iff.mpr ⟨q, hlenient, rfl⟩, fun q' hq' => ?_⟩
      cases hlenient.symm.trans hq'
      exact hcomplete
    · rintro ⟨h, hcomplete⟩
      obtain ⟨q, hq, rfl⟩ := map_eq_ok_iff.mp h
      exact map_eq_ok_iff.mpr ⟨q, (plan_strict_iff c).mpr ⟨hq, hcomplete q hq⟩, rfl⟩
  · rintro c more hmore ⟨text, h⟩
    obtain ⟨q, hq, -⟩ := map_eq_ok_iff.mp h
    exact ⟨_, map_eq_ok_iff.mpr ⟨_, plan_mono hmore hq, rfl⟩⟩

end Artifact

namespace Dialects

/-- In strict mode, and with an import that nothing needs, the code is the same. -/
theorem configuration_dialects : ∃ text more body,
    Artifact.generate schema config = .ok text ∧
    Artifact.generate schema { config with strict := true } = .ok text ∧
    Artifact.generate schema { config with imports := config.imports ++ ["crate::Extra"] } =
      .ok more ∧
    text = Artifact.front "meta/ast.yaml" config.imports ++ body ∧
    more = Artifact.front "meta/ast.yaml" (config.imports ++ ["crate::Extra"]) ++ body := by
  obtain ⟨⟨body, hbody⟩, hstrict, hmore⟩ := Artifact.configuration_only_filters schema
  have hkinds : (Artifact.plan schema config).toOption.map Artifact.Plan.kinds = some kinds := by
    decide +kernel
  obtain ⟨q, hq, hqk⟩ := Option.map_eq_some_iff.mp hkinds
  have hplan : Artifact.plan schema config = .ok q := by
    cases hp : Artifact.plan schema config with
    | error f => rw [hp] at hq; cases hq
    | ok p => rw [hp] at hq; cases hq; rfl
  obtain ⟨text, htext⟩ : ∃ text, Artifact.generate schema config = .ok text :=
    ⟨_, map_eq_ok_iff.mpr ⟨q, hplan, rfl⟩⟩
  obtain ⟨more, hwith⟩ :=
    hmore config (config.imports ++ ["crate::Extra"]) (by simp) ⟨text, htext⟩
  refine ⟨text, more, body, htext, ?_, hwith, ?_, ?_⟩
  · refine (hstrict config text).mpr ⟨htext, fun q' hq' => ?_⟩
    cases hplan.symm.trans hq'
    rw [hqk]
    intro k hk plan hplan
    have hall : ∀ k ∈ kinds, ∀ p ∈ k.position, ∀ arms, p = .dispatch arms →
        ∀ a ∈ arms, a.action ≠ .none := by
      simp [kinds, anyPlan]
    cases plan with
    | field f => trivial
    | dispatch arms => exact hall k hk _ hplan arms rfl
  · rw [hbody _ _ htext]
    rfl
  · rw [hbody _ _ hwith]
    rfl

end Dialects

end TreeSchema
