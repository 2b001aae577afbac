import TreeSchema.Children.Source
import TreeSchema.Proofs.Source.Spelling

/-!
# Reading back the statements of a plan

The text of a children plan spells its statements.
-/

namespace TreeSchema

open Source

namespace Place

def expr : Place → Expr
  | field name => .field (.var "node") name
  | var name => .var name
  | deref p => .deref p.expr

def Named : Place → Prop
  | field name => Name.isIdent name = true
  | var name => Name.isIdent name = true
  | deref p => p.Named

end Place

namespace Operand

/-- The operand where fields and methods are looked up, which pass a reference. -/
def expr : Operand → Expr
  | place p => p.expr
  | reference v => .var v

def refExpr : Operand → Expr
  | place p => .ref p.expr
  | reference v => .var v

def Named : Operand → Prop
  | place p => p.Named
  | reference v => Name.isIdent v = true

end Operand

/-- The statement that follows an access path from an operand. -/
def Access.stmt : Access → Operand → ℕ → Stmt
  | [], node, _ =>
    .expr (.methodWith (.var "children") "push" (.call Fixed.viewName "from" node.refExpr))
  | .box :: rest, box, depth => stmt rest box.content depth
  | .sequence :: rest, list, depth =>
    .forIn (itemName depth) (.method list.expr "iter")
      [stmt rest (.reference (itemName depth)) (depth + 1)]
  | .separated :: rest, list, depth =>
    .forIn (itemName depth) (.method (.field list.expr "inner") "iter")
      [stmt rest (.reference (itemName depth)) (depth + 1)]
  | .optional :: rest, option, depth =>
    .ifSome (itemName depth) option.refExpr
      [stmt rest (.reference (itemName depth)) (depth + 1)]

/-! ### Places and operands -/

namespace Place

theorem getLast?_text {p : Place} (h : p.Named) :
    ∃ c, p.text.toList.getLast? = some c ∧ Name.isWordPart c = true := by
  induction p with
  | field name =>
    obtain ⟨c, hc, hw⟩ := getLast?_ident h
    exact ⟨c, by rw [text, String.toList_append, List.getLast?_append, hc]; rfl, hw⟩
  | var name => exact getLast?_ident h
  | deref p ih =>
    obtain ⟨c, hc, hw⟩ := ih h
    exact ⟨c, by rw [text, String.toList_append, List.getLast?_append, hc]; rfl, hw⟩

theorem tokens_text_deref (p : Place) :
    tokens (deref p).text.toList = .mark "*" :: tokens p.text.toList := by
  rw [text, tokens_after (by decide)]
  rfl

theorem spellsReceiver {p : Place} (h : p.Named) (hd : p.isDeref = false) :
    SpellsReceiver (tokens p.text.toList) p.expr := by
  cases p with
  | field name =>
    have ht : tokens (field name).text.toList = [.ident "node"] ++ [.mark ".", .ident name] := by
      rw [text, String.toList_append,
        tokens_append (apart_word (by decide) (Name.isWordPart_of_isIdent h)), tokens_ident h,
        show tokens "node.".toList = [.ident "node", .mark "."] by decide]
      rfl
    rw [ht]
    exact (spellsReceiver_var "node").field name
  | var name =>
    rw [text, tokens_ident h]
    exact spellsReceiver_var name
  | deref p => cases hd

theorem spellsExpr {p : Place} (h : p.Named) : SpellsExpr (tokens p.text.toList) p.expr := by
  induction p with
  | field name => exact (spellsReceiver (p := field name) h rfl).spellsExpr
  | var name => exact (spellsReceiver (p := var name) h rfl).spellsExpr
  | deref p ih =>
    rw [tokens_text_deref]
    exact (ih h).deref

end Place

namespace Operand

theorem spellsExpr {o : Operand} (h : o.Named) :
    SpellsExpr (tokens o.asReference.toList) o.refExpr := by
  cases o with
  | place p =>
    have ht : tokens (asReference (place p)).toList = .mark "&" :: tokens p.text.toList := by
      rw [asReference, tokens_after (by decide)]
      rfl
    rw [ht]
    exact (Place.spellsExpr h).ref
  | reference v =>
    rw [asReference, tokens_ident h]
    exact (spellsReceiver_var v).spellsExpr

theorem spellsReceiver {o : Operand} (h : o.Named) :
    SpellsReceiver (tokens o.asReceiver.toList) o.expr := by
  cases o with
  | place p =>
    by_cases hd : p.isDeref = true
    · have ht : tokens (asReceiver (place p)).toList =
          .mark "(" :: tokens p.text.toList ++ [.mark ")"] := by
        rw [asReceiver, if_pos hd, tokens_before (by decide), tokens_after (by decide)]
        rfl
      rw [ht]
      exact (Place.spellsExpr h).parens
    · rw [asReceiver, if_neg hd]
      exact Place.spellsReceiver h (by simpa using hd)
  | reference v =>
    rw [asReceiver, tokens_ident h]
    exact spellsReceiver_var v

/-- A dot after a receiver is a token of its own. -/
theorem apart_asReceiver {o : Operand} (h : o.Named) {b : List Char} (hb : b.head? = some '.') :
    Apart o.asReceiver.toList b := by
  have hdot : ∀ c, Name.isWordPart c = true ∨ c = ')' → joins c '.' = false := by
    rintro c (hc | rfl)
    · exact joins_of_isWordPart_ne (by rw [hc]; decide)
    · decide
  have hlast : ∃ c, o.asReceiver.toList.getLast? = some c ∧
      (Name.isWordPart c = true ∨ c = ')') := by
    cases o with
    | place p =>
      by_cases hd : p.isDeref = true
      · refine ⟨')', ?_, .inr rfl⟩
        rw [asReceiver, if_pos hd, String.toList_append, List.getLast?_append]
        rfl
      · obtain ⟨c, hc, hw⟩ := Place.getLast?_text h
        exact ⟨c, by simpa [asReceiver, hd] using hc, .inl hw⟩
    | reference v =>
      obtain ⟨c, hc, hw⟩ := getLast?_ident h
      exact ⟨c, hc, .inl hw⟩
  obtain ⟨c, hc, hw⟩ := hlast
  intro x hx y hy
  rw [hc] at hx
  rw [hb] at hy
  cases hx
  cases hy
  exact hdot c hw

end Operand

/-! ### Paths -/

theorem lineTokens_line (text : String) :
    lineTokens (codeLines [.line text]) = tokens text.toList := by
  simp [codeLines, requestLines, lineTokens]

/-- A block is spelled with braces. -/
theorem lineTokens_block {header : String} {ts : List Token}
    (h : tokens header.toList = ts ++ [.mark "\x7b"]) (body : Code) :
    lineTokens (codeLines (.openBlock header :: body ++ [.closeBlock "\x7d"])) =
      ts ++ (.mark "\x7b" :: lineTokens (codeLines body) ++ [.mark "\x7d"]) := by
  have hheader : lineTokens [header] = ts ++ [.mark "\x7b"] := by simpa [lineTokens] using h
  have hfooter : lineTokens ["\x7d"] = [.mark "\x7d"] := by decide
  change lineTokens (codeLines ([.openBlock header] ++ body ++ [.closeBlock "\x7d"])) = _
  rw [codeLines_append, codeLines_append, lineTokens_append, lineTokens_append]
  simp [requestLines, hheader, hfooter]

namespace Access

theorem tokens_push (reference : String) :
    tokens ("children.push(" ++ Fixed.viewName ++ "::from(" ++ reference ++ "));").toList =
      [.ident "children", .mark ".", .ident "push", .mark "(", .ident Fixed.viewName, .mark "::",
        .ident "from", .mark "("] ++ tokens reference.toList ++
          [.mark ")", .mark ")", .mark ";"] := by
  rw [tokens_before (by decide), tokens_after (by decide)]
  rfl

/-- The line that starts a loop over what is called on a list. -/
theorem tokens_each {item call : String} {list : Operand} {ts : List Token}
    (hi : Name.isIdent item = true) (hl : list.Named) (hdot : call.toList.head? = some '.')
    (hc : tokens call.toList = ts ++ [.mark "\x7b"]) :
    tokens ("for " ++ item ++ " in " ++ list.asReceiver ++ call).toList =
      (.mark "for" :: .ident item :: .mark "in" :: (tokens list.asReceiver.toList ++ ts)) ++
        [.mark "\x7b"] := by
  have hhead : tokens ("for " ++ item ++ " in ").toList =
      [.mark "for", .ident item, .mark "in"] := by
    rw [tokens_before (by decide), tokens_after (by decide), tokens_ident hi]
    rfl
  rw [String.append_assoc, tokens_between (by decide) (by decide), hhead, String.toList_append,
    tokens_append (Operand.apart_asReceiver hl hdot), hc]
  simp

theorem tokens_present {item : String} (hi : Name.isIdent item = true) (reference : String) :
    tokens ("if let Some(" ++ item ++ ") = " ++ reference ++ " \x7b").toList =
      .mark "if" :: .mark "let" :: .ident "Some" :: .mark "(" :: .ident item :: .mark ")" ::
        .mark "=" :: tokens reference.toList ++ [.mark "\x7b"] := by
  rw [tokens_before (by decide), tokens_between (by decide) (by decide), tokens_before (by decide),
    tokens_after (by decide), tokens_ident hi]
  rfl

theorem toList_itemName (depth : ℕ) :
    (itemName depth).toList = "child_".toList ++ Nat.toDigits 10 depth := by
  rw [itemName, String.toList_append]
  exact congrArg _ Nat.toList_repr

theorem underscore_mem_itemName (depth : ℕ) : '_' ∈ (itemName depth).toList := by
  rw [toList_itemName]
  exact List.mem_append_left _ (by decide)

theorem isIdent_itemName (depth : ℕ) : Name.isIdent (itemName depth) = true := by
  have hchars := toList_itemName depth
  have hdigits : ∀ c ∈ Nat.toDigits 10 depth, Name.isWordPart c = true := by
    intro c hc
    have hd := Nat.isDigit_of_mem_toDigits (by decide) (by decide) hc
    simp [Name.isWordPart, Char.isAlphanum, hd]
  have hword : Name.isWord (itemName depth).toList = true := by
    rw [hchars]
    simpa [Name.isWord, Name.isWordStart, Name.isWordPart] using hdigits
  -- no keyword has an underscore
  have hplain : ∀ k ∈ Name.keywords, '_' ∉ k.toList := by decide
  have hkeyword : Name.isKeyword (itemName depth) = false := by
    by_contra hk
    exact hplain _ (by simpa [Name.isKeyword] using hk) (underscore_mem_itemName depth)
  have hlone : itemName depth ≠ "_" := by
    intro h
    have hl := congrArg (fun s : String => s.toList.length) h
    simp [hchars] at hl
  simp [Name.isIdent, hword, hkeyword, hlone]

theorem spellsStmts (a : Access) {o : Operand} (h : o.Named) (depth : ℕ) :
    SpellsStmts (lineTokens (codeLines (a.code o depth))) [a.stmt o depth] := by
  induction a generalizing o depth with
  | nil =>
    rw [code, lineTokens_line, tokens_push]
    have hcall := (Operand.spellsExpr h).call Fixed.viewName "from"
    have hpush := ((spellsReceiver_var "children").methodWith hcall.spellsExpr "push").spellsExpr
    simpa [stmt] using hpush.stmt
  | cons w a ih =>
    have hitem := isIdent_itemName depth
    have hbody := ih (o := .reference (itemName depth)) hitem (depth + 1)
    cases w with
    | box =>
      have hcontent : o.content.Named := by cases o <;> exact h
      exact ih hcontent depth
    | sequence =>
      have hlist := (Operand.spellsReceiver h).method "iter"
      have hcall : tokens ".iter() \x7b".toList =
          ([.mark ".", .ident "iter"] ++ [.mark "(", .mark ")"]) ++ [.mark "\x7b"] := by decide
      rw [code, lineTokens_block (tokens_each hitem h (by decide) hcall)]
      exact SpellsStmts.forIn (itemName depth) hlist.spellsExpr hbody
    | separated =>
      have hlist := ((Operand.spellsReceiver h).field "inner").method "iter"
      rw [List.append_assoc] at hlist
      have hcall : tokens ".inner.iter() \x7b".toList =
          ([.mark ".", .ident "inner"] ++ ([.mark ".", .ident "iter"] ++ [.mark "(", .mark ")"])) ++
            [.mark "\x7b"] := by decide
      rw [code, lineTokens_block (tokens_each hitem h (by decide) hcall)]
      exact SpellsStmts.forIn (itemName depth) hlist.spellsExpr hbody
    | optional =>
      rw [code, lineTokens_block (tokens_present hitem _)]
      exact SpellsStmts.ifSome (itemName depth) (Operand.spellsExpr h) hbody

end Access

namespace Walk

/-- The statement for a field of the node at hand. -/
def nodeStmt (w : Walk) : Stmt := w.access.stmt (.place (.field w.field)) 0

/-- The statement for a field that is held by its variable. -/
def varStmt (w : Walk) : Stmt := w.access.stmt (.reference w.var) 0

theorem spellsStmts_node {walks : List Walk} (h : ∀ w ∈ walks, Name.isIdent w.field = true) :
    SpellsStmts (lineTokens (codeLines
      (walks.flatMap fun w => w.access.code (.place (.field w.field)) 0)))
      (walks.map nodeStmt) := by
  rw [codeLines_flatMap, lineTokens_flatMap]
  exact spellsList_flatMap fun w hw =>
    w.access.spellsStmts (o := .place (.field w.field)) (h w hw) 0

theorem spellsStmts_var {walks : List Walk} (h : ∀ w ∈ walks, Name.isIdent w.var = true) :
    SpellsStmts (lineTokens (codeLines
      (walks.flatMap fun w => w.access.code (.reference w.var) 0))) (walks.map varStmt) := by
  rw [codeLines_flatMap, lineTokens_flatMap]
  exact spellsList_flatMap fun w hw => w.access.spellsStmts (o := .reference w.var) (h w hw) 0

end Walk

/-! ### Arms -/

/-- The walks of an arm; a payload is the field `0` of its variant. -/
def ArmBody.walks : ArmBody → List Walk
  | empty => []
  | payload access => [⟨"0", some "inner", access⟩]
  | fields walks => walks

namespace VariantWalk

def clause (type : String) (v : VariantWalk) : Clause :=
  ⟨type, v.variant, v.form, v.body.walks.map fun w => (w.field, w.var),
    v.body.walks.map Walk.varStmt⟩

/-- The arm can be written: its names are identifiers, and its pattern has the right form. -/
def Named (v : VariantWalk) : Prop :=
  Name.isIdent v.variant = true ∧ match v.body with
    | .empty => True
    | .payload _ => v.form = .tuple
    | .fields walks => v.form = .struct ∧ walks ≠ [] ∧
        ∀ w ∈ walks, Name.isIdent w.field = true ∧ Name.isIdent w.var = true

theorem Named.named_var {v : VariantWalk} (h : v.Named) {w : Walk} (hw : w ∈ v.body.walks) :
    Name.isIdent w.var = true := by
  obtain ⟨variant, form, body⟩ := v
  cases body with
  | empty => cases hw
  | payload access =>
    rw [List.mem_singleton.mp hw]
    exact (by decide : Name.isIdent "inner" = true)
  | fields walks => exact (h.2.2.2 w hw).2

end VariantWalk

namespace ArmPattern

theorem tokens_path {type variant : String} (ht : Name.isIdent type = true)
    (hv : Name.isIdent variant = true) :
    tokens (type ++ "::" ++ variant).toList = [.ident type, .mark "::", .ident variant] := by
  have hlast : (type ++ "::").toList.getLast?.all Name.isWordPart = false := by
    rw [String.toList_append, List.getLast?_append]
    rfl
  rw [String.toList_append, tokens_append (apart_word hlast (Name.isWordPart_of_isIdent hv)),
    String.toList_append, tokens_append (apart_ident ht (by decide)), tokens_ident ht,
    tokens_ident hv]
  rfl

/-- A field of a pattern with its comma. -/
theorem spellsBindings_text {b : String × String} (hf : Name.isIdent b.1 = true)
    (hx : Name.isIdent b.2 = true) :
    SpellsBindings (tokens (bindingText b).toList ++ [.mark ","]) [b] := by
  obtain ⟨f, x⟩ := b
  by_cases h : x = f
  · subst h
    rw [bindingText, if_pos rfl, tokens_ident hf]
    exact spellsBindings_field x
  · have ht : tokens (f ++ ": " ++ x).toList = [.ident f, .mark ":", .ident x] := by
      rw [tokens_between (by decide) (by decide), String.toList_append,
        tokens_append (apart_ident hf (by decide)), tokens_ident hf, tokens_ident hx]
      rfl
    rw [bindingText, if_neg h, ht]
    exact spellsBindings_renamed f x

theorem spellsBindings_texts {bs : List (String × String)}
    (h : ∀ b ∈ bs, Name.isIdent b.1 = true ∧ Name.isIdent b.2 = true) :
    SpellsBindings ((bs.map bindingText).flatMap fun t => tokens t.toList ++ [.mark ","]) bs := by
  rw [List.flatMap_map]
  simpa using spellsList_flatMap fun b hb => spellsBindings_text (h b hb).1 (h b hb).2

/-- Texts with commas between them and two dots after them. -/
theorem tokens_intercalate (texts : List String) (h : texts ≠ []) :
    tokens (", ".intercalate texts ++ ", .. \x7d").toList =
      (texts.flatMap fun t => tokens t.toList ++ [.mark ","]) ++ [.mark "..", .mark "\x7d"] := by
  induction texts with
  | nil => exact absurd rfl h
  | cons t texts ih =>
    cases texts with
    | nil =>
      rw [String.intercalate_singleton, tokens_before (by decide)]
      simp only [List.flatMap_singleton, List.append_assoc]
      rfl
    | cons u texts =>
      rw [String.intercalate_cons_cons, String.append_assoc,
        tokens_between (by decide) (by decide), tokens_before (by decide),
        ih (List.cons_ne_nil _ _), show tokens ", ".toList = [.mark ","] by decide]
      simp only [List.flatMap_cons, List.append_assoc]

theorem spellsPattern_bindings {type variant : String} {bs : List (String × String)}
    (ht : Name.isIdent type = true) (hv : Name.isIdent variant = true)
    (hne : bs ≠ []) (h : ∀ b ∈ bs, Name.isIdent b.1 = true ∧ Name.isIdent b.2 = true) :
    SpellsPattern (tokens ((fields bs).text (type ++ "::" ++ variant)).toList) type variant
      .struct bs := by
  have hopen : tokens (type ++ "::" ++ variant ++ " \x7b ").toList =
      [.ident type, .mark "::", .ident variant, .mark "\x7b"] := by
    rw [tokens_before (by decide), tokens_path ht hv]
    rfl
  have htexts := tokens_intercalate (bs.map bindingText) (by simpa using hne)
  change SpellsPattern (tokens (type ++ "::" ++ variant ++ " \x7b " ++
    ", ".intercalate (bs.map bindingText) ++ ", .. \x7d").toList) type variant .struct bs
  rw [String.append_assoc, tokens_between (by decide) (by decide), hopen, htexts]
  simpa using spellsPattern_fields (spellsBindings_texts h) type variant

/-- The pattern before the arrow. -/
theorem spellsPattern {type : String} {v : VariantWalk} (ht : Name.isIdent type = true)
    (h : v.Named) :
    SpellsPattern (tokens (v.patternText type).toList) type v.variant v.form
      (v.body.walks.map fun w => (w.field, w.var)) := by
  obtain ⟨variant, form, body⟩ := v
  obtain ⟨hv, hbody⟩ := h
  have hpath := tokens_path ht hv
  cases body with
  | empty =>
    cases form with
    | unit =>
      rw [VariantWalk.patternText, VariantWalk.pattern, text, hpath]
      exact spellsPattern_unit type variant
    | tuple =>
      rw [VariantWalk.patternText, VariantWalk.pattern, text, tokens_before (by decide), hpath]
      exact spellsPattern_ignored type variant
    | struct =>
      rw [VariantWalk.patternText, VariantWalk.pattern, text, tokens_before (by decide), hpath]
      exact spellsPattern_fields spellsList_nil type variant
  | payload access =>
    obtain rfl : form = .tuple := hbody
    rw [VariantWalk.patternText, VariantWalk.pattern, text, tokens_before (by decide), hpath]
    exact spellsPattern_payload type variant "inner"
  | fields walks =>
    obtain ⟨rfl, hne, hnames⟩ := hbody
    exact spellsPattern_bindings ht hv (by simpa using hne) (by simpa using hnames)

end ArmPattern

namespace VariantWalk

theorem spellsClauses {type : String} {v : VariantWalk} (ht : Name.isIdent type = true)
    (h : v.Named) : SpellsClauses (lineTokens (codeLines (v.code type))) [v.clause type] := by
  have hpattern := ArmPattern.spellsPattern ht h
  have hvars : ∀ w ∈ v.body.walks, Name.isIdent w.var = true := fun w => h.named_var
  have harrow : tokens (v.patternText type ++ " => \x7b").toList =
      tokens (v.patternText type).toList ++ [.mark "=>"] ++ [.mark "\x7b"] := by
    rw [tokens_before (by decide), List.append_assoc]
    rfl
  have hblock {body : Code} (hbody : SpellsStmts (lineTokens (codeLines body))
      (v.body.walks.map Walk.varStmt)) :
      SpellsClauses (lineTokens (codeLines (.openBlock (v.patternText type ++ " => \x7b") ::
        body ++ [.closeBlock "\x7d"]))) [v.clause type] := by
    rw [lineTokens_block harrow, List.append_assoc]
    exact hpattern.clause hbody
  unfold code
  split
  -- an arm that takes nothing is a line of its own
  · next hbody =>
    have hempty : tokens (v.patternText type ++ " => \x7b\x7d").toList =
        tokens (v.patternText type).toList ++ [.mark "=>", .mark "\x7b", .mark "\x7d"] :=
      tokens_before (by decide)
    have hnone : v.body.walks = [] := by rw [hbody]; rfl
    rw [lineTokens_line, hempty, clause, hnone]
    rw [hnone] at hpattern
    exact hpattern.clause spellsList_nil
  · next access hbody =>
    have hstmts : v.body.walks.map Walk.varStmt = [access.stmt (.reference "inner") 0] := by
      rw [hbody]
      rfl
    exact hblock (hstmts ▸ access.spellsStmts (o := .reference "inner")
      (by decide : Name.isIdent "inner" = true) 0)
  · next walks hbody =>
    have hwalks : v.body.walks = walks := by rw [hbody]; rfl
    rw [hwalks] at hvars hblock
    exact hblock (Walk.spellsStmts_var hvars)

end VariantWalk

/-! ### Plans -/

namespace ChildrenPlan

/-- What the text of a plan spells. -/
def sourceBody (type : String) : ChildrenPlan → Source.Body
  | none => .statements []
  | fields walks => .statements (walks.map Walk.nodeStmt)
  | variants arms => .cases "node" (arms.map fun v => v.clause type)

def Named : ChildrenPlan → Prop
  | none => True
  | fields walks => ∀ w ∈ walks, Name.isIdent w.field = true
  | variants arms => ∀ v ∈ arms, v.Named

theorem spellsClauses_arms {type : String} {arms : List VariantWalk}
    (ht : Name.isIdent type = true) (h : ∀ v ∈ arms, v.Named) :
    SpellsClauses (lineTokens (codeLines (arms.flatMap (VariantWalk.code type))))
      (arms.map fun v => v.clause type) := by
  rw [codeLines_flatMap, lineTokens_flatMap]
  exact spellsList_flatMap fun v hv => VariantWalk.spellsClauses ht (h v hv)

theorem read_text {type : String} {plan : ChildrenPlan} (ht : Name.isIdent type = true)
    (h : plan.Named) : Source.read (Code.text (plan.code type)) = some (plan.sourceBody type) := by
  cases plan with
  | none =>
    apply SpellsStmts.read
    rw [tokens_text]
    exact spellsList_nil
  | fields walks =>
    apply SpellsStmts.read
    rw [tokens_text]
    exact Walk.spellsStmts_node h
  | variants arms =>
    refine SpellsClauses.read ?_ (spellsClauses_arms ht h)
    have hmatch : tokens "match node \x7b".toList =
        [.mark "match", .ident "node"] ++ [.mark "\x7b"] := by decide
    rw [tokens_text, code, lineTokens_block hmatch]
    rfl

end ChildrenPlan

end TreeSchema
