import TreeSchema.Proofs.Source.Grammar

/-!
# Spelling

How each expression, statement and clause can be spelled. Each rule says that the tokens of the
whole, put together from those of its parts, read back as the whole.
-/

namespace TreeSchema.Source

/-- Nothing that ends a statement. -/
def Tree.isPlain : Tree → Bool
  | .token t => t != .mark ";"
  | .group d _ => d == .parens

/-- Nothing follows an expression, or a field or method does. -/
def Continues (rest : List Tree) : Prop := ∀ t ∈ rest.head?, t = .token (.mark ".")

/-- The tokens are an expression. -/
def SpellsExpr (ts : List Token) (e : Expr) : Prop :=
  ∃ trees, Reads ts trees ∧ trees.all Tree.isPlain = true ∧ expr trees = some e

/-- The tokens are an expression that fields and methods can follow. -/
def SpellsReceiver (ts : List Token) (e : Expr) : Prop :=
  ∃ trees, Reads ts trees ∧ trees.all Tree.isPlain = true ∧
    ∀ rest, Continues rest → expr (trees ++ rest) = suffixes e rest

/-- The tokens are some items of a list; what follows them is read as the rest of it. -/
def SpellsList {α : Type} (read : List Tree → Option (List α)) (ts : List Token) (xs : List α) :
    Prop :=
  ∃ trees, Reads ts trees ∧ ∀ rest, read (trees ++ rest) = (read rest).map fun more => xs ++ more

abbrev SpellsStmts := SpellsList (stmts [])

abbrev SpellsClauses := SpellsList (clauses [])

abbrev SpellsBindings := SpellsList bindings

/-! ### Expressions -/

theorem SpellsReceiver.spellsExpr {ts : List Token} {e : Expr} (h : SpellsReceiver ts e) :
    SpellsExpr ts e := by
  obtain ⟨trees, hr, hp, he⟩ := h
  refine ⟨trees, hr, hp, ?_⟩
  have hnil := he [] (by simp [Continues])
  simpa [suffixes] using hnil

theorem spellsReceiver_var (x : String) : SpellsReceiver [.ident x] (.var x) := by
  refine ⟨_, reads_ident x, rfl, fun rest hc => ?_⟩
  cases rest with
  | nil => simp [expr]
  | cons t rest =>
    have ht : t = .token (.mark ".") := hc t rfl
    subst ht
    simp [expr]

theorem SpellsExpr.deref {ts : List Token} {e : Expr} (h : SpellsExpr ts e) :
    SpellsExpr (.mark "*" :: ts) (.deref e) := by
  obtain ⟨trees, hr, hp, he⟩ := h
  refine ⟨_, (reads_token rfl rfl).append hr, by simpa [Tree.isPlain] using hp, ?_⟩
  simp [expr, he]

theorem SpellsExpr.ref {ts : List Token} {e : Expr} (h : SpellsExpr ts e) :
    SpellsExpr (.mark "&" :: ts) (.ref e) := by
  obtain ⟨trees, hr, hp, he⟩ := h
  refine ⟨_, (reads_token rfl rfl).append hr, by simpa [Tree.isPlain] using hp, ?_⟩
  simp [expr, he]

theorem SpellsExpr.parens {ts : List Token} {e : Expr} (h : SpellsExpr ts e) :
    SpellsReceiver (.mark "(" :: ts ++ [.mark ")"]) e := by
  obtain ⟨trees, hr, -, he⟩ := h
  refine ⟨_, reads_parens hr, rfl, fun rest _ => ?_⟩
  simp [expr, he]

theorem SpellsExpr.call {ts : List Token} {e : Expr} (h : SpellsExpr ts e) (t f : String) :
    SpellsReceiver ([.ident t, .mark "::", .ident f] ++ (.mark "(" :: ts ++ [.mark ")"]))
      (.call t f e) := by
  obtain ⟨trees, hr, -, he⟩ := h
  have hpath : Reads [.ident t, .mark "::", .ident f]
      [.token (.ident t), .token (.mark "::"), .token (.ident f)] :=
    (reads_ident t).append ((reads_token rfl rfl).append (reads_ident f))
  refine ⟨_, hpath.append (reads_parens hr), rfl, fun rest _ => ?_⟩
  simp [expr, he]

theorem reads_dot (name : String) :
    Reads [.mark ".", .ident name] [.token (.mark "."), .token (.ident name)] :=
  (reads_token rfl rfl).append (reads_ident name)

theorem SpellsReceiver.field {ts : List Token} {e : Expr} (h : SpellsReceiver ts e) (f : String) :
    SpellsReceiver (ts ++ [.mark ".", .ident f]) (.field e f) := by
  obtain ⟨trees, hr, hp, he⟩ := h
  refine ⟨_, hr.append (reads_dot f), by simpa [Tree.isPlain] using hp, fun rest hc => ?_⟩
  rw [List.append_assoc, he _ (by simp [Continues])]
  cases rest with
  | nil => simp [suffixes]
  | cons t rest =>
    have ht : t = .token (.mark ".") := hc t rfl
    subst ht
    simp [suffixes]

theorem SpellsReceiver.method {ts : List Token} {e : Expr} (h : SpellsReceiver ts e) (m : String) :
    SpellsReceiver (ts ++ ([.mark ".", .ident m] ++ [.mark "(", .mark ")"])) (.method e m) := by
  obtain ⟨trees, hr, hp, he⟩ := h
  refine ⟨_, hr.append ((reads_dot m).append (reads_parens reads_nil)),
    by simpa [Tree.isPlain] using hp, fun rest _ => ?_⟩
  rw [List.append_assoc, he _ (by simp [Continues])]
  simp [suffixes]

theorem SpellsReceiver.methodWith {ts as : List Token} {e a : Expr} (h : SpellsReceiver ts e)
    (ha : SpellsExpr as a) (m : String) :
    SpellsReceiver (ts ++ ([.mark ".", .ident m] ++ (.mark "(" :: as ++ [.mark ")"])))
      (.methodWith e m a) := by
  obtain ⟨trees, hr, hp, he⟩ := h
  obtain ⟨arg, hra, -, hea⟩ := ha
  have hne : arg ≠ [] := by
    rintro rfl
    simp [expr] at hea
  refine ⟨_, hr.append ((reads_dot m).append (reads_parens hra)),
    by simpa [Tree.isPlain] using hp, fun rest _ => ?_⟩
  rw [List.append_assoc, he _ (by simp [Continues])]
  simp [suffixes, hea]

/-! ### Lists -/

section Lists

variable {α β : Type} {read : List Tree → Option (List α)}

theorem spellsList_nil : SpellsList read [] [] := by
  refine ⟨[], reads_nil, fun rest => ?_⟩
  simp

theorem SpellsList.append {as bs : List Token} {xs ys : List α} (ha : SpellsList read as xs)
    (hb : SpellsList read bs ys) : SpellsList read (as ++ bs) (xs ++ ys) := by
  obtain ⟨ta, hra, hxa⟩ := ha
  obtain ⟨tb, hrb, hxb⟩ := hb
  refine ⟨ta ++ tb, hra.append hrb, fun rest => ?_⟩
  rw [List.append_assoc, hxa, hxb]
  simp [Option.map_map, Function.comp_def]

theorem spellsList_flatMap {l : List β} {g : β → List Token} {f : β → α}
    (h : ∀ x ∈ l, SpellsList read (g x) [f x]) : SpellsList read (l.flatMap g) (l.map f) := by
  induction l with
  | nil => exact spellsList_nil
  | cons x l ih =>
    rw [List.forall_mem_cons] at h
    exact h.1.append (ih h.2)

/-- A list is read to its end if nothing is the empty list. -/
theorem SpellsList.exists_eq_some {ts : List Token} {xs : List α} (h : SpellsList read ts xs)
    (hend : read [] = some []) : ∃ trees, Reads ts trees ∧ read trees = some xs := by
  obtain ⟨trees, hr, hx⟩ := h
  have hnil := hx []
  exact ⟨trees, hr, by simpa [hend] using hnil⟩

end Lists

/-! ### Statements -/

theorem stmts_append {header : List Tree} {ts : List Tree} (h : ts.all Tree.isPlain = true)
    (rest : List Tree) : stmts header (ts ++ rest) = stmts (header ++ ts) rest := by
  induction ts generalizing header with
  | nil => simp
  | cons t ts ih =>
    simp only [List.all_cons, Bool.and_eq_true] at h
    have hstep : stmts header (t :: (ts ++ rest)) = stmts (header ++ [t]) (ts ++ rest) := by
      obtain ⟨ht, -⟩ := h
      cases t with
      | token t =>
        have ht' : t ≠ .mark ";" := by simpa [Tree.isPlain] using ht
        rw [stmts]
        · simpa using ht'
        · simp
      | group d body =>
        cases d with
        | parens => simp [stmts]
        | braces => simp [Tree.isPlain] at ht
    rw [List.cons_append, hstep, ih h.2, List.append_assoc]
    rfl

theorem SpellsExpr.stmt {ts : List Token} {e : Expr} (h : SpellsExpr ts e) :
    SpellsStmts (ts ++ [.mark ";"]) [.expr e] := by
  obtain ⟨trees, hr, hp, he⟩ := h
  refine ⟨_, hr.append (reads_token rfl rfl), fun rest => ?_⟩
  rw [List.append_assoc, stmts_append hp]
  simp [stmts, he]

theorem spellsStmts_block {hs bs : List Token} {header : List Tree} {body : List Stmt} {s : Stmt}
    (hr : Reads hs header) (hp : header.all Tree.isPlain = true) (hh : headed header body = some s)
    (hb : SpellsStmts bs body) :
    SpellsStmts (hs ++ (.mark "\x7b" :: bs ++ [.mark "\x7d"])) [s] := by
  obtain ⟨tb, hrb, hbody⟩ := hb.exists_eq_some (by simp [stmts])
  refine ⟨_, hr.append (reads_braces hrb), fun rest => ?_⟩
  rw [List.append_assoc, stmts_append hp]
  simp [stmts, hbody, hh]

theorem SpellsStmts.forIn {ts bs : List Token} {e : Expr} {body : List Stmt} (x : String)
    (h : SpellsExpr ts e) (hb : SpellsStmts bs body) :
    SpellsStmts ((.mark "for" :: .ident x :: .mark "in" :: ts) ++
      (.mark "\x7b" :: bs ++ [.mark "\x7d"])) [.forIn x e body] := by
  obtain ⟨trees, hr, hp, he⟩ := h
  have hhead : Reads (.mark "for" :: .ident x :: .mark "in" :: ts)
      (.token (.mark "for") :: .token (.ident x) :: .token (.mark "in") :: trees) :=
    (reads_token rfl rfl).append ((reads_ident x).append ((reads_token rfl rfl).append hr))
  exact spellsStmts_block hhead (by simpa [Tree.isPlain] using hp) (by simp [headed, he]) hb

theorem SpellsStmts.ifSome {ts bs : List Token} {e : Expr} {body : List Stmt} (x : String)
    (h : SpellsExpr ts e) (hb : SpellsStmts bs body) :
    SpellsStmts ((.mark "if" :: .mark "let" :: .ident "Some" :: .mark "(" :: .ident x ::
      .mark ")" :: .mark "=" :: ts) ++ (.mark "\x7b" :: bs ++ [.mark "\x7d"]))
        [.ifSome x e body] := by
  obtain ⟨trees, hr, hp, he⟩ := h
  have hhead : Reads (.mark "if" :: .mark "let" :: .ident "Some" :: .mark "(" :: .ident x ::
      .mark ")" :: .mark "=" :: ts) (.token (.mark "if") :: .token (.mark "let") ::
      .token (.ident "Some") :: .group .parens [.token (.ident x)] ::
        .token (.mark "=") :: trees) :=
    (reads_token rfl rfl).append ((reads_token rfl rfl).append ((reads_ident "Some").append
      ((reads_parens (reads_ident x)).append ((reads_token rfl rfl).append hr))))
  exact spellsStmts_block hhead (by simpa [Tree.isPlain] using hp) (by simp [headed, he]) hb

/-! ### Clauses -/

/-- A pattern: whatever the body is, the pattern makes a clause of it. -/
def SpellsPattern (ts : List Token) (type variant : String) (form : PatternForm)
    (bs : List (String × String)) : Prop :=
  ∃ trees, Reads ts trees ∧ .token (.mark "=>") ∉ trees ∧
    ∀ body, clause body trees = some ⟨type, variant, form, bs, body⟩

theorem clauses_append {pattern ts : List Tree} (h : .token (.mark "=>") ∉ ts) (rest : List Tree) :
    clauses pattern (ts ++ rest) = clauses (pattern ++ ts) rest := by
  induction ts generalizing pattern with
  | nil => simp
  | cons t ts ih =>
    simp only [List.mem_cons, not_or] at h
    have hstep : clauses pattern (t :: (ts ++ rest)) = clauses (pattern ++ [t]) (ts ++ rest) := by
      rw [clauses]
      rintro body more rfl -
      exact h.1 rfl
    rw [List.cons_append, hstep, ih h.2, List.append_assoc]
    rfl

theorem SpellsPattern.clause {ps bs : List Token} {type variant : String} {form : PatternForm}
    {vars : List (String × String)} {body : List Stmt} (h : SpellsPattern ps type variant form vars)
    (hb : SpellsStmts bs body) :
    SpellsClauses (ps ++ (.mark "=>" :: (.mark "\x7b" :: bs ++ [.mark "\x7d"])))
      [⟨type, variant, form, vars, body⟩] := by
  obtain ⟨pattern, hrp, hna, hclause⟩ := h
  obtain ⟨tb, hrb, hbody⟩ := hb.exists_eq_some (by simp [stmts])
  refine ⟨_, hrp.append ((reads_token rfl rfl).append (reads_braces hrb)), fun rest => ?_⟩
  rw [List.append_assoc, clauses_append hna]
  simp [clauses, hbody, hclause]

theorem reads_path (type variant : String) : Reads [.ident type, .mark "::", .ident variant]
    [.token (.ident type), .token (.mark "::"), .token (.ident variant)] :=
  (reads_ident type).append ((reads_token rfl rfl).append (reads_ident variant))

theorem spellsPattern_unit (type variant : String) :
    SpellsPattern [.ident type, .mark "::", .ident variant] type variant .unit [] := by
  refine ⟨_, reads_path type variant, by simp, fun body => ?_⟩
  simp [clause]

theorem spellsPattern_ignored (type variant : String) :
    SpellsPattern ([.ident type, .mark "::", .ident variant] ++
      (.mark "(" :: [.mark "_"] ++ [.mark ")"])) type variant .tuple [] := by
  refine ⟨_, (reads_path type variant).append (reads_parens (reads_token rfl rfl)), by simp,
    fun body => ?_⟩
  simp [clause]

theorem spellsPattern_payload (type variant x : String) :
    SpellsPattern ([.ident type, .mark "::", .ident variant] ++
      (.mark "(" :: [.ident x] ++ [.mark ")"])) type variant .tuple [("0", x)] := by
  refine ⟨_, (reads_path type variant).append (reads_parens (reads_ident x)), by simp,
    fun body => ?_⟩
  simp [clause]

theorem spellsPattern_fields {ts : List Token} {bs : List (String × String)}
    (h : SpellsBindings ts bs) (type variant : String) :
    SpellsPattern ([.ident type, .mark "::", .ident variant] ++
      (.mark "\x7b" :: (ts ++ [.mark ".."]) ++ [.mark "\x7d"])) type variant .struct bs := by
  obtain ⟨trees, hr, hbs⟩ := h
  refine ⟨_, (reads_path type variant).append
    (reads_braces (hr.append (reads_token rfl rfl))), by simp, fun body => ?_⟩
  simp [clause, hbs, bindings]

theorem spellsBindings_field (f : String) : SpellsBindings [.ident f, .mark ","] [(f, f)] := by
  refine ⟨_, (reads_ident f).append (reads_token rfl rfl), fun rest => ?_⟩
  simp [bindings]

theorem spellsBindings_renamed (f x : String) :
    SpellsBindings [.ident f, .mark ":", .ident x, .mark ","] [(f, x)] := by
  refine ⟨_, (reads_ident f).append ((reads_token (t := .mark ":") rfl rfl).append
    ((reads_ident x).append (reads_token rfl rfl))), fun rest => ?_⟩
  simp [bindings]

/-! ### Bodies -/

theorem SpellsStmts.read {text : String} {ss : List Stmt}
    (h : SpellsStmts (tokens text.toList) ss) : read text = some (.statements ss) := by
  obtain ⟨trees, hr, hend⟩ := h.exists_eq_some (by simp [stmts])
  rw [Source.read, trees_of_reads hr, Option.bind_some, body]
  · simp [hend]
  -- no statement begins with a match
  · rintro x cs rfl
    cases hb : stmts [] cs <;> simp [stmts, headed, hb] at hend

theorem SpellsClauses.read {text : String} {ts : List Token} {cs : List Clause} {x : String}
    (ht : tokens text.toList = .mark "match" :: .ident x :: .mark "\x7b" :: ts ++ [.mark "\x7d"])
    (h : SpellsClauses ts cs) : read text = some (.cases x cs) := by
  obtain ⟨trees, hr, hend⟩ := h.exists_eq_some (by simp [clauses])
  have hreads := (reads_token (t := .mark "match") rfl rfl).append
    ((reads_ident x).append (reads_braces hr))
  rw [Source.read, trees_of_reads (ht ▸ hreads)]
  simp [body, hend]

end TreeSchema.Source
