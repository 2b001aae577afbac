import TreeSchema.Proofs.Source.Row

/-!
# Code as a tree

Requests to a writer form a flat list, in which a block is started and ended apart. Code whose
blocks are ended in turn is a tree of lines and blocks, and its requests are those of the tree. The
lines in a block then stand further in than its first and its last one.
-/

namespace TreeSchema

/-- A piece of source text. -/
inductive Piece where
  | line (text : String)
  | blank
  /-- A line, an indented body, and a line that ends it. -/
  | block (header : String) (body : List Piece) (footer : String)
  /-- A block whose second half starts with a line of its own. -/
  | twoArmed (header : String) (first : List Piece) (middle : String) (second : List Piece)
      (footer : String)
  /-- Pieces that the gate's attribute makes conditional. -/
  | guarded (gate : Option Gate) (item : List Piece)

namespace Piece

def braces (header : String) (body : List Piece) : Piece :=
  .block (header ++ " \x7b") body "\x7d"

/-! ### Requests -/

mutual

/-- The requests by which a piece is written. -/
def requests : Piece → Code
  | line text => [.line text]
  | blank => [.blank]
  | block header body footer => .openBlock header :: allRequests body ++ [.closeBlock footer]
  | twoArmed header first middle second footer =>
    .openBlock header :: allRequests first ++ .reopenBlock middle :: allRequests second ++
      [.closeBlock footer]
  | guarded gate item => .gate gate :: allRequests item

def allRequests : List Piece → Code
  | [] => []
  | c :: cs => requests c ++ allRequests cs

end

@[simp] theorem allRequests_nil : allRequests [] = [] := rfl

@[simp] theorem allRequests_cons (c : Piece) (cs : List Piece) :
    allRequests (c :: cs) = c.requests ++ allRequests cs := rfl

@[simp] theorem allRequests_append (cs ds : List Piece) :
    allRequests (cs ++ ds) = allRequests cs ++ allRequests ds := by
  induction cs with
  | nil => rfl
  | cons c cs ih => simp [ih]

@[simp] theorem allRequests_flatMap {α : Type} (l : List α) (f : α → List Piece) :
    allRequests (l.flatMap f) = l.flatMap fun a => allRequests (f a) := by
  induction l with
  | nil => rfl
  | cons a l ih => simp [ih]

@[simp] theorem allRequests_map {α : Type} (l : List α) (f : α → Piece) :
    allRequests (l.map f) = l.flatMap fun a => (f a).requests := by
  rw [List.map_eq_flatMap, allRequests_flatMap]
  simp

theorem allRequests_lines {α : Type} (l : List α) (f : α → String) :
    allRequests (l.map fun a => line (f a)) = l.map fun a => .line (f a) := by
  rw [allRequests_map, List.map_eq_flatMap]
  rfl

/-! ### Lines -/

mutual

/-- The lines of a piece inside `depth` blocks. -/
def rows (depth : ℕ) : Piece → List (List Char)
  | line text => [Writer.row depth text]
  | blank => [[]]
  | block header body footer =>
    Writer.row depth header :: allRows (depth + 1) body ++ [Writer.row depth footer]
  | twoArmed header first middle second footer =>
    Writer.row depth header :: allRows (depth + 1) first ++
      Writer.row depth middle :: allRows (depth + 1) second ++ [Writer.row depth footer]
  | guarded gate item =>
    (gate.map fun g => Writer.row depth g.cfgAttribute).toList ++ allRows depth item

def allRows (depth : ℕ) : List Piece → List (List Char)
  | [] => []
  | c :: cs => rows depth c ++ allRows depth cs

end

@[simp] theorem allRows_nil (depth : ℕ) : allRows depth [] = [] := rfl

@[simp] theorem allRows_cons (depth : ℕ) (c : Piece) (cs : List Piece) :
    allRows depth (c :: cs) = c.rows depth ++ allRows depth cs := rfl

@[simp] theorem allRows_append (depth : ℕ) (cs ds : List Piece) :
    allRows depth (cs ++ ds) = allRows depth cs ++ allRows depth ds := by
  induction cs with
  | nil => rfl
  | cons c cs ih => simp [ih]

mutual

/-- Whatever is asked for afterwards starts at the same depth as the piece. -/
theorem rows_requests (c : Piece) (depth : ℕ) (rest : Code) :
    Code.rows depth (c.requests ++ rest) = c.rows depth ++ Code.rows depth rest := by
  cases c with
  | line text => rfl
  | blank => rfl
  | block header body footer =>
    simp [requests, rows, Code.rows, rows_allRequests_append body]
  | twoArmed header first middle second footer =>
    simp [requests, rows, Code.rows, rows_allRequests_append first,
      rows_allRequests_append second]
  | guarded gate item =>
    cases gate <;> simp [requests, rows, Code.rows, rows_allRequests_append item]

theorem rows_allRequests_append (cs : List Piece) (depth : ℕ) (rest : Code) :
    Code.rows depth (allRequests cs ++ rest) = allRows depth cs ++ Code.rows depth rest := by
  cases cs with
  | nil => rfl
  | cons c cs =>
    rw [allRequests_cons, List.append_assoc, rows_requests c, rows_allRequests_append cs,
      allRows_cons, List.append_assoc]

end

theorem rows_allRequests (cs : List Piece) (depth : ℕ) :
    Code.rows depth (allRequests cs) = allRows depth cs := by
  simpa [Code.rows] using rows_allRequests_append cs depth []

mutual

/-- A line of a piece stands at its depth or further in. -/
theorem exists_row_of_mem_rows (c : Piece) (depth : ℕ) {row : List Char} (h : row ∈ c.rows depth) :
    ∃ d ≥ depth, ∃ text, row = Writer.row d text := by
  cases c with
  | line text => exact ⟨depth, le_rfl, text, List.mem_singleton.mp h⟩
  | blank => exact ⟨depth, le_rfl, "", List.mem_singleton.mp h⟩
  | block header body footer =>
    simp only [rows, List.cons_append, List.mem_cons, List.mem_append, List.not_mem_nil,
      or_false] at h
    rcases h with rfl | hbody | rfl
    · exact ⟨depth, le_rfl, header, rfl⟩
    · obtain ⟨d, hd, hrow⟩ := exists_row_of_mem_allRows body _ hbody
      exact ⟨d, Nat.le_of_succ_le hd, hrow⟩
    · exact ⟨depth, le_rfl, footer, rfl⟩
  | twoArmed header first middle second footer =>
    simp only [rows, List.cons_append, List.mem_cons, List.mem_append, List.not_mem_nil,
      or_false] at h
    rcases h with rfl | (hfirst | rfl | hsecond) | rfl
    · exact ⟨depth, le_rfl, header, rfl⟩
    · obtain ⟨d, hd, hrow⟩ := exists_row_of_mem_allRows first _ hfirst
      exact ⟨d, Nat.le_of_succ_le hd, hrow⟩
    · exact ⟨depth, le_rfl, middle, rfl⟩
    · obtain ⟨d, hd, hrow⟩ := exists_row_of_mem_allRows second _ hsecond
      exact ⟨d, Nat.le_of_succ_le hd, hrow⟩
    · exact ⟨depth, le_rfl, footer, rfl⟩
  | guarded gate item =>
    rcases List.mem_append.mp h with hgate | hitem
    · obtain ⟨g, -, rfl⟩ := Option.map_eq_some_iff.mp (Option.mem_toList.mp hgate)
      exact ⟨depth, le_rfl, g.cfgAttribute, rfl⟩
    · exact exists_row_of_mem_allRows item depth hitem

theorem exists_row_of_mem_allRows (cs : List Piece) (depth : ℕ) {row : List Char}
    (h : row ∈ allRows depth cs) : ∃ d ≥ depth, ∃ text, row = Writer.row d text := by
  cases cs with
  | nil => cases h
  | cons c cs =>
    rcases List.mem_append.mp h with hc | hcs
    · exact exists_row_of_mem_rows c depth hc
    · exact exists_row_of_mem_allRows cs depth hcs

end

end Piece

end TreeSchema
