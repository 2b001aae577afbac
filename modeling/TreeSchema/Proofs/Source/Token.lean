import Mathlib.Data.List.SplitBy
import TreeSchema.Code
import TreeSchema.Proofs.Name

/-!
# Tokens of written text

Source text is cut into tokens, and the tokens are nested by their parentheses and braces. Lines
and indentation leave no trace in the tokens.
-/

namespace TreeSchema.Source

/-- Neighbours that belong to one token: parts of a word, and the marks that are written in two
characters. -/
def joins (a b : Char) : Bool :=
  (Name.isWordPart a && Name.isWordPart b) || [(':', ':'), ('=', '>'), ('.', '.')].contains (a, b)

inductive Token where
  | ident (name : String)
  /-- A keyword, a lone underscore, or a mark. -/
  | mark (text : String)
  deriving DecidableEq, Repr

def Token.ofText (text : String) : Token :=
  if Name.isIdent text then .ident text else .mark text

/-- The tokens of a text; blanks only end a token. -/
def tokens (cs : List Char) : List Token :=
  ((cs.splitBy joins).filter fun t => !t.all Text.isBlank).map fun t =>
    Token.ofText (String.ofList t)

inductive Delimiter where
  | parens
  | braces
  deriving DecidableEq, Repr

def Delimiter.ofOpening? : Token → Option Delimiter
  | .mark "(" => some .parens
  | .mark "\x7b" => some .braces
  | _ => none

def Delimiter.ofClosing? : Token → Option Delimiter
  | .mark ")" => some .parens
  | .mark "\x7d" => some .braces
  | _ => none

/-- A token, or what stands between two delimiters. -/
inductive Tree where
  | token (t : Token)
  | group (d : Delimiter) (body : List Tree)

/-- Nest tokens. The stack holds the groups that are open, with what stands before them, and
`done` is what the innermost of them holds so far. -/
def nest : List Token → List (Delimiter × List Tree) → List Tree → Option (List Tree)
  | [], [], done => some done
  | [], _ :: _, _ => none
  | t :: ts, stack, done =>
    match Delimiter.ofOpening? t, Delimiter.ofClosing? t, stack with
    | some d, _, _ => nest ts ((d, done) :: stack) []
    | none, none, _ => nest ts stack (done ++ [.token t])
    | none, some d, (d', before) :: stack =>
      if d = d' then nest ts stack (before ++ [.group d done]) else none
    | none, some _, [] => none

/-- The nested tokens of a text whose delimiters match. -/
def trees (text : String) : Option (List Tree) := nest (tokens text.toList) [] []

/-! ### Cutting text at its boundaries -/

/-- No token runs from the first text into the second. -/
def Apart (a b : List Char) : Prop := ∀ x ∈ a.getLast?, ∀ y ∈ b.head?, joins x y = false

theorem tokens_append {a b : List Char} (h : Apart a b) :
    tokens (a ++ b) = tokens a ++ tokens b := by
  unfold tokens
  rw [List.splitBy_append h, List.filter_append, List.map_append]

/-- A character that is never part of a longer token. -/
def isLone (c : Char) : Bool := !Name.isWordPart c && !([':', '=', '>', '.'].contains c)

theorem joins_lone_left {c : Char} (h : isLone c = true) (x : Char) : joins c x = false := by
  simp only [isLone, Bool.and_eq_true, Bool.not_eq_true'] at h
  simp_all [joins]

theorem joins_lone_right {c : Char} (h : isLone c = true) (x : Char) : joins x c = false := by
  simp only [isLone, Bool.and_eq_true, Bool.not_eq_true'] at h
  simp_all [joins]

theorem joins_of_isWordPart_ne {a b : Char} (h : Name.isWordPart a ≠ Name.isWordPart b) :
    joins a b = false := by
  have hpairs : ∀ p ∈ [(':', ':'), ('=', '>'), ('.', '.')],
      Name.isWordPart p.1 = Name.isWordPart p.2 := by decide
  by_contra hj
  simp only [joins, Bool.not_eq_false, Bool.or_eq_true, Bool.and_eq_true,
    List.contains_iff_mem] at hj
  rcases hj with ⟨ha, hb⟩ | hp
  · exact h (ha.trans hb.symm)
  · exact h (hpairs _ hp)

theorem apart_of_last {a b : List Char} (h : a.getLast?.all isLone = true) : Apart a b := by
  intro x hx y _
  rw [Option.mem_def.mp hx] at h
  exact joins_lone_left h y

theorem apart_of_append {x a b : List Char} (hne : a ≠ []) (h : a.getLast?.all isLone = true) :
    Apart (x ++ a) b := by
  apply apart_of_last
  rwa [List.getLast?_append_of_ne_nil x hne]

theorem apart_of_head {a b : List Char} (h : b.head?.all isLone = true) : Apart a b := by
  intro x _ y hy
  rw [Option.mem_def.mp hy] at h
  exact joins_lone_right h x

/-- A word ends where anything but a word follows. -/
theorem apart_of_word {a b : List Char} (ha : a.getLast?.all Name.isWordPart = true)
    (hb : b.head?.all Name.isWordPart = false) : Apart a b := by
  intro x hx y hy
  rw [Option.mem_def.mp hx, Option.all_some] at ha
  rw [Option.mem_def.mp hy, Option.all_some] at hb
  exact joins_of_isWordPart_ne (by rw [ha, hb]; simp)

theorem apart_word {a b : List Char} (ha : a.getLast?.all Name.isWordPart = false)
    (hb : b.all Name.isWordPart = true) : Apart a b := by
  intro x hx y hy
  have hyw : Name.isWordPart y = true := List.all_eq_true.mp hb y (List.mem_of_mem_head? hy)
  rw [Option.mem_def.mp hx, Option.all_some] at ha
  exact joins_of_isWordPart_ne (by rw [hyw, ha]; simp)

theorem toList_ne_nil_of_isIdent {s : String} (h : Name.isIdent s = true) : s.toList ≠ [] := by
  intro hnil
  simp [Name.isIdent, hnil, Name.isWord] at h

theorem getLast?_ident {s : String} (h : Name.isIdent s = true) :
    ∃ c, s.toList.getLast? = some c ∧ Name.isWordPart c = true := by
  have hne := toList_ne_nil_of_isIdent h
  refine ⟨_, List.getLast?_eq_some_getLast hne, ?_⟩
  exact List.all_eq_true.mp (Name.isWordPart_of_isIdent h) _ (List.getLast_mem hne)

theorem apart_ident {s : String} {b : List Char} (h : Name.isIdent s = true)
    (hb : b.head?.all Name.isWordPart = false) : Apart s.toList b := by
  obtain ⟨c, hc, hw⟩ := getLast?_ident h
  exact apart_of_word (by simp [hc, hw]) hb

/-- An identifier is one token. -/
theorem tokens_ident {s : String} (h : Name.isIdent s = true) : tokens s.toList = [.ident s] := by
  have hall := Name.isWordPart_of_isIdent h
  have hne := toList_ne_nil_of_isIdent h
  have hchain : s.toList.IsChain fun x y => joins x y := by
    refine List.Pairwise.isChain (List.pairwise_of_forall_mem_list fun a ha b hb => ?_)
    simp [joins, List.all_eq_true.mp hall a ha, List.all_eq_true.mp hall b hb]
  have hblank : s.toList.all Text.isBlank = false := by
    obtain ⟨c, hc⟩ := List.exists_mem_of_ne_nil _ hne
    exact List.all_eq_false.mpr
      ⟨c, hc, by simp [Name.not_isBlank_of_isWordPart (List.all_eq_true.mp hall c hc)]⟩
  simp [tokens, List.splitBy_of_isChain hne hchain, hblank, Token.ofText, h]

theorem tokens_before {s l : String} (h : l.toList.head?.all isLone = true) :
    tokens (s ++ l).toList = tokens s.toList ++ tokens l.toList := by
  rw [String.toList_append, tokens_append (apart_of_head h)]

theorem tokens_after {s l : String} (h : l.toList.getLast?.all isLone = true) :
    tokens (l ++ s).toList = tokens l.toList ++ tokens s.toList := by
  rw [String.toList_append, tokens_append (apart_of_last h)]

theorem tokens_between {s l t : String} (hne : l.toList ≠ [])
    (h : l.toList.getLast?.all isLone = true) :
    tokens (s ++ l ++ t).toList = tokens (s ++ l).toList ++ tokens t.toList := by
  rw [String.toList_append, String.toList_append, tokens_append (apart_of_append hne h)]

/-! ### Nesting piece by piece -/

/-- Some tokens nest to these trees, whatever stands around them. -/
def Reads (ts : List Token) (trees : List Tree) : Prop :=
  ∀ rest stack done, nest (ts ++ rest) stack done = nest rest stack (done ++ trees)

theorem reads_nil : Reads [] [] := by
  intro rest stack done
  simp

theorem Reads.append {a b : List Token} {ta tb : List Tree} (ha : Reads a ta) (hb : Reads b tb) :
    Reads (a ++ b) (ta ++ tb) := by
  intro rest stack done
  rw [List.append_assoc, ha, hb, List.append_assoc]

theorem reads_token {t : Token} (ho : Delimiter.ofOpening? t = none)
    (hc : Delimiter.ofClosing? t = none) : Reads [t] [.token t] := by
  intro rest stack done
  simp [nest, ho, hc]

theorem reads_ident (x : String) : Reads [.ident x] [.token (.ident x)] := reads_token rfl rfl

theorem reads_group {o c : Token} {d : Delimiter} {ts : List Token} {trees : List Tree}
    (ho : Delimiter.ofOpening? o = some d) (hc : Delimiter.ofClosing? c = some d)
    (hn : Delimiter.ofOpening? c = none) (h : Reads ts trees) :
    Reads (o :: ts ++ [c]) [.group d trees] := by
  intro rest stack done
  simp only [List.cons_append, List.append_assoc, nest, ho]
  rw [h]
  simp [nest, hc, hn]

theorem reads_parens {ts : List Token} {trees : List Tree} (h : Reads ts trees) :
    Reads (.mark "(" :: ts ++ [.mark ")"]) [.group .parens trees] := reads_group rfl rfl rfl h

theorem reads_braces {ts : List Token} {trees : List Tree} (h : Reads ts trees) :
    Reads (.mark "\x7b" :: ts ++ [.mark "\x7d"]) [.group .braces trees] :=
  reads_group rfl rfl rfl h

theorem trees_of_reads {text : String} {ts : List Tree} (h : Reads (tokens text.toList) ts) :
    trees text = some ts := by
  have hn := h [] [] []
  simpa [trees, nest] using hn

/-! ### Written code -/

theorem tokens_append_newline (cs : List Char) : tokens (cs ++ ['\n']) = tokens cs := by
  rw [tokens_append (apart_of_head (by decide)), show tokens ['\n'] = [] by decide, List.append_nil]

theorem tokens_blanks (n : ℕ) : tokens (List.replicate n ' ') = [] := by
  induction n with
  | zero => rfl
  | succ n ih =>
    rw [List.replicate_succ, ← List.singleton_append, tokens_append (apart_of_last (by decide)), ih]
    decide

/-- The lines that a request adds, without their indentation. -/
def requestLines : Request → List String
  | .line text => [text]
  | .blank => [""]
  | .openBlock text => [text]
  | .closeBlock text => [text]
  | .reopenBlock text => [text]
  | .gate g => (g.map Gate.cfgAttribute).toList

/-- The lines of some code without their indentation. -/
def codeLines (code : Code) : List String := code.flatMap requestLines

@[simp] theorem codeLines_nil : codeLines [] = [] := rfl

@[simp] theorem codeLines_cons (r : Request) (code : Code) :
    codeLines (r :: code) = requestLines r ++ codeLines code := List.flatMap_cons

@[simp] theorem codeLines_append (code code' : Code) :
    codeLines (code ++ code') = codeLines code ++ codeLines code' := List.flatMap_append

@[simp] theorem codeLines_flatMap {α : Type} (l : List α) (f : α → Code) :
    codeLines (l.flatMap f) = l.flatMap fun a => codeLines (f a) := List.flatMap_assoc

def lineTokens (lines : List String) : List Token := lines.flatMap fun l => tokens l.toList

@[simp] theorem lineTokens_append (lines lines' : List String) :
    lineTokens (lines ++ lines') = lineTokens lines ++ lineTokens lines' := List.flatMap_append

@[simp] theorem lineTokens_flatMap {α : Type} (l : List α) (f : α → List String) :
    lineTokens (l.flatMap f) = l.flatMap fun a => lineTokens (f a) := List.flatMap_assoc

/-- A text that is empty or ends with its last line. -/
def Ended (text : String) : Prop := text.toList.getLast?.all isLone = true

/-- After writing, a text still ends with a line, and has the tokens of the lines in addition. -/
def Adds (w w' : Writer) (lines : List String) : Prop :=
  Ended w.text → Ended w'.text ∧
    tokens w'.text.toList = tokens w.text.toList ++ lineTokens lines

theorem Adds.trans {w₁ w₂ w₃ : Writer} {a b : List String} (h₁ : Adds w₁ w₂ a)
    (h₂ : Adds w₂ w₃ b) : Adds w₁ w₃ (a ++ b) := by
  intro he
  obtain ⟨he₂, ht₂⟩ := h₁ he
  obtain ⟨he₃, ht₃⟩ := h₂ he₂
  refine ⟨he₃, ?_⟩
  rw [ht₃, ht₂, lineTokens_append, List.append_assoc]

theorem tokens_indented (depth : ℕ) (cs : List Char) :
    tokens ((Writer.indentation depth).toList ++ cs) = tokens cs := by
  have ha : Apart (Writer.indentation depth).toList cs := by
    apply apart_of_last
    simp only [Writer.indentation, String.toList_ofList, List.getLast?_replicate]
    split <;> decide
  rw [tokens_append ha]
  simp [Writer.indentation, tokens_blanks]

theorem adds_line (w : Writer) (line : String) : Adds w (w.line line) [line] := by
  intro he
  by_cases hl : line.isEmpty = true
  · have hl' : line = "" := String.isEmpty_iff.mp hl
    subst hl'
    refine ⟨by simp [Writer.line, Ended, isLone, Name.isWordPart], ?_⟩
    have hnil : lineTokens [""] = [] := by decide
    simp [Writer.line, tokens_append_newline, hnil]
  · refine ⟨by simp [Writer.line, hl, Ended, isLone, Name.isWordPart], ?_⟩
    simp only [Writer.line, hl, Bool.false_eq_true, if_false, String.toList_append]
    rw [tokens_append (apart_of_last he), tokens_indented]
    simp [tokens_append_newline, lineTokens]

theorem adds_obey_request (w : Writer) (r : Request) : Adds w (r.obey w) (requestLines r) := by
  cases r with
  | line text => exact adds_line w text
  | blank => exact adds_line w ""
  | openBlock text => exact adds_line w text
  | closeBlock text => exact adds_line { w with depth := w.depth - 1 } text
  | reopenBlock text => exact adds_line { w with depth := w.depth - 1 } text
  | gate g =>
    cases g with
    | none => exact fun he => ⟨he, by simp [Request.obey, Writer.gate, requestLines, lineTokens]⟩
    | some g => exact adds_line w g.cfgAttribute

theorem adds_obey (code : Code) (w : Writer) : Adds w (w.obey code) (codeLines code) := by
  induction code generalizing w with
  | nil => exact fun he => ⟨he, by simp [Writer.obey, lineTokens]⟩
  | cons r code ih => exact (adds_obey_request w r).trans (ih (r.obey w))

/-- Written code has the tokens of its lines. -/
theorem tokens_text (code : Code) :
    tokens (Code.text code).toList = lineTokens (codeLines code) := by
  have h := (adds_obey code Writer.empty rfl).2
  simpa [tokens, Writer.empty, Code.text] using h

end TreeSchema.Source
