import TreeSchema.Proofs.Source.Token
import TreeSchema.Text.Split

/-!
# The lines of written code

Code as the lines that are written for it, each with its indentation. The text of some code is its
lines with a line break after each of them, and the lines can be read back from the text unless one
of them holds a line break itself.
-/

namespace TreeSchema

namespace Text

/-- Some lines, each with a line break after it. -/
def unlines (rows : List (List Char)) : List Char := rows.flatMap (· ++ ['\n'])

/-- The lines of a text, and what stands after the last line break. -/
def lines (text : String) : List (List Char) := split '\n' text.toList

@[simp] theorem unlines_nil : unlines [] = [] := rfl

@[simp] theorem unlines_cons (row : List Char) (rows : List (List Char)) :
    unlines (row :: rows) = row ++ '\n' :: unlines rows := by simp [unlines]

@[simp] theorem unlines_append (rows rows' : List (List Char)) :
    unlines (rows ++ rows') = unlines rows ++ unlines rows' := by simp [unlines]

theorem split_append_mark {mark : Char} {piece : List Char} (h : mark ∉ piece) (rest : List Char) :
    split mark (piece ++ mark :: rest) = piece :: split mark rest := by
  induction piece with
  | nil => simp [split]
  | cons c cs ih =>
    have hc : c ≠ mark := fun e => h (e ▸ List.mem_cons_self)
    have hcs : mark ∉ cs := fun m => h (List.mem_cons_of_mem _ m)
    simp [split, hc, ih hcs]

theorem split_unlines {rows : List (List Char)} (h : ∀ row ∈ rows, '\n' ∉ row) :
    split '\n' (unlines rows) = rows ++ [[]] := by
  induction rows with
  | nil => simp [split]
  | cons row rows ih =>
    have hrow := h row List.mem_cons_self
    have hrows : ∀ r ∈ rows, '\n' ∉ r := fun r hr => h r (List.mem_cons_of_mem _ hr)
    rw [unlines_cons, split_append_mark hrow, ih hrows, List.cons_append]

end Text

namespace Writer

/-- A line at an indentation; an empty line has none. -/
def row (depth : ℕ) (text : String) : List Char :=
  if text.isEmpty then [] else List.replicate (4 * depth) ' ' ++ text.toList

theorem text_line (w : Writer) (text : String) :
    (w.line text).text = w.text ++ String.ofList (row w.depth text ++ ['\n']) := by
  unfold line row
  split
  · rfl
  · simp [indentation]

@[simp] theorem depth_line (w : Writer) (text : String) : (w.line text).depth = w.depth := by
  unfold line
  split <;> rfl

theorem depth_gate (w : Writer) (gate : Option Gate) : (w.gate gate).depth = w.depth := by
  cases gate with
  | none => rfl
  | some g => exact depth_line w g.cfgAttribute

@[simp] theorem obey_nil (w : Writer) : w.obey [] = w := rfl

@[simp] theorem obey_cons (w : Writer) (r : Request) (code : Code) :
    w.obey (r :: code) = (r.obey w).obey code := rfl

@[simp] theorem obey_append (w : Writer) (code code' : Code) :
    w.obey (code ++ code') = (w.obey code).obey code' := List.foldl_append

end Writer

namespace Code

/-- The lines of some code that starts inside `depth` blocks. -/
def rows : ℕ → Code → List (List Char)
  | _, [] => []
  | depth, .line text :: code => Writer.row depth text :: rows depth code
  | depth, .blank :: code => [] :: rows depth code
  | depth, .openBlock text :: code => Writer.row depth text :: rows (depth + 1) code
  | depth, .closeBlock text :: code => Writer.row (depth - 1) text :: rows (depth - 1) code
  | depth, .reopenBlock text :: code => Writer.row (depth - 1) text :: rows (depth - 1 + 1) code
  | depth, .gate none :: code => rows depth code
  | depth, .gate (some g) :: code => Writer.row depth g.cfgAttribute :: rows depth code

/-- Writing code adds its lines. -/
theorem text_obey (code : Code) (w : Writer) :
    (w.obey code).text = w.text ++ String.ofList (Text.unlines (rows w.depth code)) := by
  have hstep (w' : Writer) (row : List Char) (rest : List (List Char)) :
      w'.text ++ String.ofList (row ++ ['\n']) ++ String.ofList (Text.unlines rest) =
        w'.text ++ String.ofList (Text.unlines (row :: rest)) := by
    rw [String.append_assoc, ← String.ofList_append]
    simp
  induction code generalizing w with
  | nil => simp [rows]
  | cons r code ih =>
    rw [Writer.obey_cons, ih]
    cases r with
    | line text => simp only [Request.obey, Writer.depth_line, Writer.text_line, hstep, rows]
    | blank => exact hstep w [] _
    | openBlock text =>
      simp only [Request.obey, Writer.openBlock, Writer.depth_line, Writer.text_line, hstep, rows]
    | closeBlock text =>
      simp only [Request.obey, Writer.closeBlock, Writer.depth_line, Writer.text_line, hstep, rows]
    | reopenBlock text =>
      simp only [Request.obey, Writer.reopenBlock, Writer.closeBlock, Writer.depth_line,
        Writer.text_line, hstep, rows]
    | gate g =>
      cases g with
      | none => rfl
      | some g =>
        simp only [Request.obey, Writer.gate, Writer.depth_line, Writer.text_line, hstep, rows]

theorem toList_text (code : Code) : (text code).toList = Text.unlines (rows 0 code) := by
  simp [text, text_obey, Writer.empty]

/-- A line that is written is one of the code's lines, at some depth. -/
theorem exists_row_of_mem_rows {code : Code} {depth : ℕ} {row : List Char}
    (h : row ∈ rows depth code) :
    ∃ d, ∃ text ∈ Source.codeLines code, row = Writer.row d text := by
  induction code generalizing depth with
  | nil => cases h
  | cons r code ih =>
    have hlater {depth' : ℕ} (hrest : row ∈ rows depth' code) :
        ∃ d, ∃ text ∈ Source.codeLines (r :: code), row = Writer.row d text := by
      obtain ⟨d, text, ht, hrow⟩ := ih hrest
      exact ⟨d, text, by simp [ht], hrow⟩
    cases r with
    | blank =>
      rcases List.mem_cons.mp h with rfl | hrest
      · exact ⟨0, "", List.mem_cons_self, rfl⟩
      · exact hlater hrest
    | gate g =>
      cases g with
      | none => exact hlater h
      | some g =>
        rcases List.mem_cons.mp h with rfl | hrest
        · exact ⟨depth, g.cfgAttribute, by simp [Source.requestLines], rfl⟩
        · exact hlater hrest
    | _ =>
      rcases List.mem_cons.mp h with rfl | hrest
      · exact ⟨_, _, List.mem_cons_self, rfl⟩
      · exact hlater hrest

theorem lines_text {code : Code} (h : ∀ row ∈ rows 0 code, '\n' ∉ row) :
    Text.lines (text code) = rows 0 code ++ [[]] := by
  rw [Text.lines, toList_text, Text.split_unlines h]

end Code

end TreeSchema
