import TreeSchema.Proofs.Accessors
import TreeSchema.Proofs.Children.Meaning
import TreeSchema.Proofs.Schema.Spelled
import TreeSchema.Proofs.Source.Literal
import TreeSchema.Proofs.Source.Row
import TreeSchema.View.Source

/-!
# Lines without breaks

What is planned for the entries of a loaded schema is written line by line: names are identifiers
and paths, so no line holds a line break of its own.
-/

namespace TreeSchema

open Checked Source

theorem Gate.Parsed.asks {gate : Option Gate} (h : Gate.Parsed gate) : Gate.Asks gate := by
  intro g hg
  obtain ⟨src, hsrc⟩ := h g hg
  exact Gate.isFeature_of_parse? hsrc

namespace Text

/-- A text without line breaks. -/
def Plain (s : String) : Prop := '\n' ∉ s.toList

instance (s : String) : Decidable (Plain s) := inferInstanceAs (Decidable (¬ _))

@[simp] theorem plain_append {a b : String} : Plain (a ++ b) ↔ Plain a ∧ Plain b := by
  simp [Plain]

theorem plain_intercalate {sep : String} {texts : List String} (hs : Plain sep)
    (h : ∀ t ∈ texts, Plain t) : Plain (sep.intercalate texts) := by
  induction texts with
  | nil => simp [Plain]
  | cons t texts ih =>
    have ht := h t List.mem_cons_self
    have hrest := ih fun u hu => h u (List.mem_cons_of_mem _ hu)
    cases texts with
    | nil => simpa using ht
    | cons u texts =>
      rw [String.intercalate_cons_cons]
      simp [ht, hs, hrest]

theorem newline_notMem_of_all {cs : List Char} (h : cs.all Name.isWordPart = true) : '\n' ∉ cs := by
  intro hn
  exact absurd (List.all_eq_true.mp h _ hn) (by decide)

theorem plain_of_isIdent {s : String} (h : Name.isIdent s = true) : Plain s :=
  newline_notMem_of_all (Name.isWordPart_of_isIdent h)

theorem plain_of_isPath {s : String} (h : Name.isPath s = true) : Plain s :=
  (Name.isPath_iff.mp h).notMem (by decide) (by decide)

theorem plain_snakeCase {s : String} (h : Name.isIdent s = true) : Plain (Name.snakeCase s) :=
  newline_notMem_of_all (Name.isWordPart_snakeCase h)

end Text

open Text (plain_of_isIdent plain_of_isPath plain_intercalate)

/-- A request for lines without line breaks. -/
def Request.Plain (r : Request) : Prop := ∀ text ∈ requestLines r, Text.Plain text

namespace Request

variable {text : String}

@[simp] theorem plain_line : (line text).Plain ↔ Text.Plain text := by simp [Plain, requestLines]

@[simp] theorem plain_blank : blank.Plain := List.forall_mem_singleton.mpr (by decide)

@[simp] theorem plain_openBlock : (openBlock text).Plain ↔ Text.Plain text := by
  simp [Plain, requestLines]

@[simp] theorem plain_closeBlock : (closeBlock text).Plain ↔ Text.Plain text := by
  simp [Plain, requestLines]

@[simp] theorem plain_reopenBlock : (reopenBlock text).Plain ↔ Text.Plain text := by
  simp [Plain, requestLines]

theorem plain_gate {g : Option Gate} (h : Gate.Asks g) : (gate g).Plain := by
  intro text ht
  obtain ⟨g, hmem, rfl⟩ := Option.map_eq_some_iff.mp (Option.mem_toList.mp ht)
  have hfeature : Text.Plain g.feature := by
    intro hn
    have hg := h g hmem
    simp only [Gate.isFeature, Bool.and_eq_true, List.all_eq_true] at hg
    exact absurd (hg.2 _ hn).2 (by decide)
  unfold Gate.cfgAttribute
  split <;> simp +decide [hfeature]

end Request

namespace Code

/-- Code in whose lines there are no line breaks. -/
def Plain (code : Code) : Prop := ∀ r ∈ code, r.Plain

variable {code code' : Code}

@[simp] theorem plain_nil : Plain [] := by simp [Plain]

@[simp] theorem plain_cons {r : Request} : Plain (r :: code) ↔ r.Plain ∧ Plain code :=
  List.forall_mem_cons

@[simp] theorem plain_append : Plain (code ++ code') ↔ Plain code ∧ Plain code' :=
  List.forall_mem_append

theorem plain_flatMap {α : Type} {l : List α} {f : α → Code} (h : ∀ a ∈ l, Plain (f a)) :
    Plain (l.flatMap f) := by
  intro r hr
  obtain ⟨a, ha, hra⟩ := List.mem_flatMap.mp hr
  exact h a ha r hra

theorem plain_lines {α : Type} {l : List α} {f : α → String} (h : ∀ a ∈ l, Text.Plain (f a)) :
    Plain (l.map fun a => .line (f a)) := by
  intro r hr
  obtain ⟨a, ha, rfl⟩ := List.mem_map.mp hr
  exact Request.plain_line.mpr (h a ha)

theorem newline_notMem_rows (h : Plain code) (depth : ℕ) : ∀ row ∈ rows depth code, '\n' ∉ row := by
  intro row hrow
  obtain ⟨d, text, ht, rfl⟩ := exists_row_of_mem_rows hrow
  obtain ⟨r, hr, htext⟩ := List.mem_flatMap.mp ht
  have hplain := h r hr text htext
  unfold Writer.row
  split
  · simp
  · simpa [Text.Plain] using hplain

end Code

/-! ### Kinds -/

variable {d : Draft} {s : Schema} {e : Entry}

namespace Schema

theorem plain_displayNameOf (hs : ofDraft d = .ok s) {n : String} (hn : Name.isPath n = true) :
    Text.Plain (s.displayNameOf n) := by
  unfold displayNameOf
  split
  · next e he => exact plain_of_isIdent (loaded_ofDraft hs e (get?_eq_some_iff.mp he).1).display
  · exact plain_of_isPath hn

theorem plain_renderType (hs : ofDraft d = .ok s) {t : TypeExpr} (ht : t.Spelled) :
    Text.Plain (s.renderType t) := by
  unfold renderType
  induction t with
  | position => exact (by decide : Text.Plain TypeExpr.positionWord)
  | named n => exact plain_displayNameOf hs (ht n (by simp [TypeExpr.names]))
  | wrap w inner ih =>
    have hinner := ih ht
    cases w <;> simp +decide [TypeExpr.render, Wrapper.word, hinner]

end Schema

namespace Entry

theorem mem_derives {t : String} (h : t ∈ e.derives) : t ∈ baseDerives ∨ t ∈ e.extraDerives := by
  have hfold (extra out : List String) (hf : t ∈ extra.foldl
      (fun out t => if out.contains t then out else out ++ [t]) out) : t ∈ out ∨ t ∈ extra := by
    induction extra generalizing out with
    | nil => exact .inl hf
    | cons a extra ih =>
      rcases ih _ hf with hout | hextra
      · dsimp only at hout
        split at hout
        · exact .inl hout
        · rcases List.mem_append.mp hout with hout | ha
          · exact .inl hout
          · exact .inr (by simp [List.mem_singleton.mp ha])
      · exact .inr (List.mem_cons_of_mem _ hextra)
  exact hfold _ _ h

theorem plain_derivesText (h : e.Spelled) : Text.Plain e.derivesText := by
  have hall : ∀ t ∈ e.derives, Text.Plain t := by
    intro t ht
    rcases mem_derives ht with hbase | hextra
    · exact (by decide : ∀ t ∈ baseDerives, Text.Plain t) t hbase
    · exact plain_of_isPath (h.derives t hextra)
  have hlist := plain_intercalate (by decide : Text.Plain ", ") hall
  simp +decide [derivesText, hlist]

theorem plain_identityLine {visibility : String} (hv : Text.Plain visibility) (hasId : Bool) :
    Code.Plain (if hasId then [.line (identityText visibility)] else []) := by
  split <;> simp +decide [identityText, hv]

theorem plain_fieldLines (hs : Schema.ofDraft d = .ok s) {fields : Fields} (hn : FieldsNamed fields)
    (ht : TypesSpelled (fields.map Prod.snd)) {visibility : String} (hv : Text.Plain visibility) :
    Code.Plain (fields.map fun f => .line (fieldText s visibility f)) := by
  refine Code.plain_lines fun f hf => ?_
  have hname := plain_of_isIdent (hn f hf)
  have htype := Schema.plain_renderType hs (ht f.2 (List.mem_map.mpr ⟨f, hf, rfl⟩))
  simp +decide [fieldText, hv, hname, htype]

theorem plain_variantCode (hs : Schema.ofDraft d = .ok s) {v : String × Variant}
    (hn : Name.isIdent v.1 = true ∧ v.2.Named) (ht : TypesSpelled v.2.types) :
    (variantCode s v).Plain := by
  obtain ⟨name, variant⟩ := v
  have hname := plain_of_isIdent hn.1
  cases variant with
  | unit => simp +decide [variantCode, hname]
  | wrap t =>
    have htype := Schema.plain_renderType hs (ht t (by simp [Variant.types]))
    simp +decide [variantCode, hname, htype]
  | struct fields hasId =>
    have hidentity := plain_identityLine (by decide : Text.Plain "") hasId
    have hfields := plain_fieldLines hs hn.2 ht (by decide : Text.Plain "")
    simp +decide [variantCode, hname, hidentity, hfields]

theorem plain_definition (hs : Schema.ofDraft d = .ok s) (he : e ∈ s.entries) :
    (e.definition s).Plain := by
  have hl := Schema.loaded_ofDraft hs e he
  have hp := Schema.spelled_ofDraft hs e he
  have hname := plain_of_isIdent hl.display
  have hderives := plain_derivesText hp
  have hnamed := hl.named
  have htypes := hp.types
  unfold definition
  cases hshape : e.shape with
  | aliasOf target =>
    rw [hshape] at htypes
    have htarget := Schema.plain_renderType hs (htypes target (by simp [Shape.types]))
    simp +decide [hname, htarget]
  | product fields =>
    rw [hshape] at hnamed htypes
    have hidentity := plain_identityLine (by decide : Text.Plain "pub ") e.hasIdentity
    have hfields := plain_fieldLines hs hnamed htypes (by decide : Text.Plain "pub ")
    simp +decide [hname, hderives, hidentity, hfields]
  | sum variants =>
    rw [hshape] at hnamed htypes
    have hvariants : Code.Plain (variants.flatMap (variantCode s)) := by
      refine Code.plain_flatMap fun v hv => plain_variantCode hs (hnamed v hv) fun t ht => ?_
      exact htypes t (List.mem_flatMap.mpr ⟨v, hv, ht⟩)
    simp +decide [hname, hderives, hvariants]

end Entry

theorem Arm.plain_text {α : Type} {a : Arm α} {binding : Option String} {result : String}
    (hv : Name.isIdent a.variant = true) (hb : ∀ b ∈ binding, Text.Plain b)
    (hr : Text.Plain result) : Text.Plain (a.text binding result) := by
  have hvariant := plain_of_isIdent hv
  have hpattern : Text.Plain (a.form.pattern a.variant binding) := by
    unfold PatternForm.pattern
    split <;> simp +decide [hvariant, hb]
  simp +decide [Arm.text, hpattern, hr]

theorem IdentityPlan.plain_code (hl : e.Loaded) (hg : Gate.Asks e.gate) {plan : IdentityPlan}
    (h : IdentityPlan.ofEntry s e = .ok plan) : (plan.code e).Plain := by
  have hname := plain_of_isIdent hl.display
  have hgate := Request.plain_gate hg
  have hbody : plan.body.Plain := by
    unfold ofEntry at h
    split at h
    · next variants hshape =>
      split at h
      · cases h
      · next arms hcol =>
        cases h
        have hnamed := hl.named
        rw [hshape] at hnamed
        have harms : Code.Plain (arms.map fun a => .line (armText a)) := by
          refine Code.plain_lines fun a ha => ?_
          obtain ⟨v, hv, harm⟩ := exists_of_mem_collect hcol ha
          have hvariant : Name.isIdent a.variant = true := by
            unfold arm at harm
            split at harm
            · cases harm
            · cases harm
              exact (hnamed v hv).1
          unfold armText
          split <;> exact Arm.plain_text hvariant (by simp +decide) (by decide)
        simp +decide [body, harms]
    · cases h
      simp +decide [body]
  simp +decide [code, hname, hgate, hbody]

namespace PositionPlan

theorem isIdent_fieldOf? {fields : Fields} (hn : FieldsNamed fields) {f : String}
    (h : fieldOf? fields = some f) : Name.isIdent f = true := by
  have hmem : f ∈ (fields.filter (·.2.isPosition)).map Prod.fst := by
    rcases Option.or_eq_some_iff.mp h with hfind | ⟨-, hhead⟩
    · exact List.mem_of_find?_eq_some hfind
    · exact List.mem_of_mem_head? hhead
  obtain ⟨x, hx, rfl⟩ := List.mem_map.mp hmem
  exact hn x (List.mem_filter.mp hx).1

theorem isIdent_action {p : Positions} {v : Variant} (hn : v.Named) {f : String}
    (h : action s p v = .field f) : Name.isIdent f = true := by
  cases v with
  | unit => cases h
  | wrap t =>
    simp only [action] at h
    split at h
    · cases h
    · split at h <;> cases h
  | struct fields hasId =>
    simp only [action] at h
    split at h
    · next g hg =>
      cases h
      exact isIdent_fieldOf? hn hg
    · cases h

theorem plain_armText {p : Positions} {strict : Bool} {v : String × Variant}
    {a : Arm PositionAction} (hn : Name.isIdent v.1 = true ∧ v.2.Named)
    (h : arm s p strict e v = .ok a) : Text.Plain (armText a) := by
  obtain ⟨name, variant⟩ := v
  unfold arm at h
  split at h
  · cases h
  · cases h
    unfold armText
    split
    · exact Arm.plain_text hn.1 (by simp +decide) (by decide)
    · next f hf =>
      have hfield : Text.Plain f := plain_of_isIdent (isIdent_action hn.2 hf)
      exact Arm.plain_text hn.1 (by simp [hfield]) (by simp +decide [hfield])
    · exact Arm.plain_text hn.1 (by simp +decide) (by decide)
    · exact Arm.plain_text hn.1 (by simp) (by decide)

theorem plain_code (hl : e.Loaded) (hg : Gate.Asks e.gate) {p : Positions} {strict : Bool}
    {plan : PositionPlan}
    (h : ofEntry s p strict e = .ok plan) : (plan.code e).Plain := by
  have hname := plain_of_isIdent hl.display
  have hgate := Request.plain_gate hg
  have hnamed := hl.named
  have hbody : plan.body.Plain := by
    unfold ofEntry at h
    split at h
    · cases h
    · next fields hshape =>
      rw [hshape] at hnamed
      split at h
      · next f hf =>
        cases h
        simp +decide [body, plain_of_isIdent (isIdent_fieldOf? hnamed hf)]
      · cases h
    · next variants hshape =>
      rw [hshape] at hnamed
      split at h
      · cases h
      · next arms hcol =>
        cases h
        have harms : Code.Plain (arms.map fun a => .line (armText a)) := by
          refine Code.plain_lines fun a ha => ?_
          obtain ⟨v, hv, harm⟩ := exists_of_mem_collect hcol ha
          exact plain_armText (hnamed v hv) harm
        simp +decide [body, harms]
  simp +decide [code, hname, hgate, hbody]

end PositionPlan

theorem KindPlan.plain_code (hs : Schema.ofDraft d = .ok s) (he : e ∈ s.entries) {p : Positions}
    {strict : Bool} {k : KindPlan} (hk : KindPlan.ofEntry s p strict e = .ok k) :
    (k.code s).Plain := by
  obtain ⟨rfl, hidentity, hposition⟩ := KindPlan.ofEntry_eq_ok_iff.mp hk
  have hl := Schema.loaded_ofDraft hs _ he
  have hasks := (Schema.spelled_ofDraft hs _ he).gate.asks
  have hgate := Request.plain_gate hasks
  have hdefinition := Entry.plain_definition hs he
  have hid : Code.Plain (k.identity.elim [] fun i => i.code k.entry) := by
    cases hi : k.identity with
    | none => simp
    | some i =>
      rw [hi, identityOf] at hidentity
      split at hidentity
      · obtain ⟨plan, hplan, hsome⟩ := map_eq_ok_iff.mp hidentity
        cases hsome
        exact IdentityPlan.plain_code hl hasks hplan
      · cases hidentity
  have hpos : Code.Plain (k.position.elim [] fun q => q.code k.entry) := by
    cases hq : k.position with
    | none => simp
    | some q =>
      rw [hq, positionOf] at hposition
      split at hposition
      · obtain ⟨plan, hplan, hsome⟩ := map_eq_ok_iff.mp hposition
        cases hsome
        exact PositionPlan.plain_code hl hasks hplan
      · cases hposition
  rw [code]
  split <;> simp [hgate, hdefinition, hid, hpos]

/-! ### The view -/

theorem Place.plain_text {p : Place} (h : p.Named) : Text.Plain p.text := by
  induction p with
  | field name => simp +decide [text, plain_of_isIdent h]
  | var name => exact plain_of_isIdent h
  | deref p ih => simp +decide [text, ih h]

theorem Operand.plain_asReference {o : Operand} (h : o.Named) : Text.Plain o.asReference := by
  cases o with
  | place p => simp +decide [asReference, Place.plain_text h]
  | reference v => exact plain_of_isIdent h

theorem Operand.plain_asReceiver {o : Operand} (h : o.Named) : Text.Plain o.asReceiver := by
  cases o with
  | place p =>
    simp only [asReceiver]
    split <;> simp +decide [Place.plain_text h]
  | reference v => exact plain_of_isIdent h

theorem Access.plain_code (a : Access) {o : Operand} (h : o.Named) (depth : ℕ) :
    (a.code o depth).Plain := by
  induction a generalizing o depth with
  | nil => simp +decide [code, Operand.plain_asReference h]
  | cons w a ih =>
    have hitem := isIdent_itemName depth
    have hname := plain_of_isIdent hitem
    have hbody := ih (o := .reference (itemName depth)) hitem (depth + 1)
    cases w with
    | box =>
      have hcontent : o.content.Named := by cases o <;> exact h
      exact ih hcontent depth
    | optional => simp +decide [code, hname, Operand.plain_asReference h, hbody]
    | _ => simp +decide [code, hname, Operand.plain_asReceiver h, hbody]

theorem VariantWalk.plain_code {type : String} (ht : Text.Plain type) {v : VariantWalk}
    (h : v.Named) : (v.code type).Plain := by
  obtain ⟨variant, form, body⟩ := v
  have hvariant := plain_of_isIdent h.1
  cases body with
  | empty =>
    cases form <;> simp +decide [code, patternText, pattern, ArmPattern.text, ht, hvariant]
  | payload access =>
    have haccess := access.plain_code (o := .reference "inner")
      (by decide : Name.isIdent "inner" = true) 0
    simp +decide [code, patternText, pattern, ArmPattern.text, ht, hvariant, haccess]
  | fields walks =>
    obtain ⟨-, -, -, hwalks⟩ := h
    have hbody : Code.Plain (walks.flatMap fun w => w.access.code (.reference w.var) 0) :=
      Code.plain_flatMap fun w hw =>
        w.access.plain_code (o := .reference w.var) (hwalks w hw).2 0
    have hbindings : ∀ t ∈ (walks.map fun w => (w.field, w.var)).map ArmPattern.bindingText,
        Text.Plain t := by
      intro t htext
      simp only [List.mem_map] at htext
      obtain ⟨_, ⟨w, hw, rfl⟩, rfl⟩ := htext
      have hfield := plain_of_isIdent (hwalks w hw).1
      unfold ArmPattern.bindingText
      split
      · exact hfield
      · simp +decide [hfield, plain_of_isIdent (hwalks w hw).2]
    have hlist := plain_intercalate (by decide : Text.Plain ", ") hbindings
    rw [List.map_map] at hlist
    simp +decide [code, patternText, pattern, ArmPattern.text, ht, hvariant, hlist, hbody]

theorem ChildrenPlan.plain_code {type : String} (ht : Text.Plain type) {plan : ChildrenPlan}
    (h : plan.Named) : (plan.code type).Plain := by
  cases plan with
  | none => exact Code.plain_nil
  | fields walks =>
    exact Code.plain_flatMap fun w hw =>
      w.access.plain_code (o := .place (.field w.field)) (h w hw) 0
  | variants walks =>
    have harms : Code.Plain (walks.flatMap (VariantWalk.code type)) :=
      Code.plain_flatMap fun v hv => VariantWalk.plain_code ht (h v hv)
    simp +decide [code, harms]

/-- A case whose texts have no line breaks. -/
structure ViewCase.Plain (c : ViewCase) : Prop where
  type : Text.Plain c.type
  accessor : Text.Plain c.accessor
  gate : (Request.gate c.entry.gate).Plain
  children : (c.children.code c.type).Plain

theorem ViewCase.plain_of_ofEntry (hs : Schema.ofDraft d = .ok s) (he : e ∈ s.entries)
    {p : Positions} {c : ViewCase} (hc : ViewCase.ofEntry s p e = .ok c) : c.Plain := by
  have hl := Schema.loaded_ofDraft hs e he
  obtain ⟨plan, hplan, rfl⟩ := map_eq_ok_iff.mp hc
  have hnamed : plan.Named := by
    have hover := ChildrenPlan.over_ofEntry (P := fun _ _ => True) (fun _ _ _ _ _ => trivial) hplan
    exact hover.named hl
  have htype := plain_of_isIdent hl.display
  exact ⟨htype, Text.plain_snakeCase hl.display,
    Request.plain_gate (Schema.spelled_ofDraft hs e he).gate.asks,
    ChildrenPlan.plain_code htype hnamed⟩

namespace ViewCase

variable {c : ViewCase}

theorem Plain.path (h : c.Plain) : Text.Plain c.path := by
  simp +decide [ViewCase.path, h.type]

theorem Plain.unionCase (h : c.Plain) : c.unionCase.Plain := by
  simp +decide [ViewCase.unionCase, h.gate, h.type]

theorem Plain.narrowing (h : c.Plain) : c.narrowing.Plain := by
  simp +decide [ViewCase.narrowing, h.gate, h.type, h.path, asMethod, isMethod, h.accessor]

theorem Plain.nameArm (h : c.Plain) : c.nameArm.Plain := by
  simp +decide [ViewCase.nameArm, h.gate, h.type, h.path]

theorem Plain.childrenArm (h : c.Plain) : c.childrenArm.Plain := by
  unfold ViewCase.childrenArm
  split <;> simp +decide [h.gate, h.path, h.children]

theorem Plain.pointerArm (h : c.Plain) : c.pointerArm.Plain := by
  simp +decide [ViewCase.pointerArm, h.gate, h.path]

theorem Plain.conversion (h : c.Plain) : c.conversion.Plain := by
  have hposition : Text.Plain c.positionText := by
    unfold positionText
    split <;> decide
  simp +decide [ViewCase.conversion, h.gate, h.type, h.path, hposition]

end ViewCase

theorem ViewPlan.plain_code {view : ViewPlan} (h : ∀ c ∈ view.cases, c.Plain) :
    view.code.Plain := by
  have hflat {f : ViewCase → Code} (hf : ∀ c : ViewCase, c.Plain → (f c).Plain) :
      Code.Plain (view.cases.flatMap f) := Code.plain_flatMap fun c hc => hf c (h c hc)
  have hunion : view.union.Plain := by
    simp +decide [union, hflat fun c => ViewCase.Plain.unionCase]
  have hstruct : struct.Plain := by simp +decide [struct]
  have hnew : newMethod.Plain := by simp +decide [newMethod]
  have hname : view.nameMethod.Plain := by
    simp +decide [nameMethod, hflat fun c => ViewCase.Plain.nameArm]
  have hchildren : view.childrenMethod.Plain := by
    unfold childrenMethod
    split <;> simp +decide [hflat fun c => ViewCase.Plain.childrenArm]
  have hpointer : view.pointerMethod.Plain := by
    simp +decide [pointerMethod, hflat fun c => ViewCase.Plain.pointerArm]
  simp +decide [code, hunion, hstruct, hnew, hname, hchildren, hpointer,
    hflat fun c => ViewCase.Plain.narrowing, hflat fun c => ViewCase.Plain.conversion]

/-- An entry of the schema has these accessors, for some positions. -/
def KindPlan.Derived (s : Schema) (k : KindPlan) : Prop :=
  ∃ p strict, ∃ e ∈ s.entries, KindPlan.ofEntry s p strict e = .ok k

/-- An entry of the schema has this case, for some positions. -/
def ViewCase.Derived (s : Schema) (c : ViewCase) : Prop :=
  ∃ p, ∃ e ∈ s.entries, ViewCase.ofEntry s p e = .ok c

namespace Artifact

/-- The code for some kinds and a view. -/
def body (s : Schema) (kinds : List KindPlan) (view : ViewPlan) : Code :=
  kinds.flatMap (KindPlan.code s) ++ view.code

/-- No line of that code holds a line break. -/
def Unbroken (s : Schema) (kinds : List KindPlan) (view : ViewPlan) : Prop :=
  ∀ row ∈ Code.rows 0 (body s kinds view), '\n' ∉ row

theorem unbroken_of_derived (hs : Schema.ofDraft d = .ok s) {kinds : List KindPlan}
    {view : ViewPlan} (hk : ∀ k ∈ kinds, k.Derived s) (hw : ∀ c ∈ view.cases, c.Derived s) :
    Unbroken s kinds view := by
  have hkinds : Code.Plain (kinds.flatMap (KindPlan.code s)) := by
    refine Code.plain_flatMap fun k hmem => ?_
    obtain ⟨p, strict, e, he, hplan⟩ := hk k hmem
    exact KindPlan.plain_code hs he hplan
  have hview : view.code.Plain := by
    refine ViewPlan.plain_code fun c hmem => ?_
    obtain ⟨p, e, he, hcase⟩ := hw c hmem
    exact ViewCase.plain_of_ofEntry hs he hcase
  exact Code.newline_notMem_rows (Code.plain_append.mpr ⟨hkinds, hview⟩) 0

end Artifact

end TreeSchema
