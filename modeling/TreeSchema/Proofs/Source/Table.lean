import TreeSchema.Proofs.Source.Condition

/-!
# Lists of items in a text

Lines read as a list of items. An item is a line, with the conditions right before it and the lines
of the block that it opens; what stands in the block is not read. Code that holds one item after the
other is read as these items, whatever follows it.
-/

namespace TreeSchema

namespace Source

/-- An item of a list. -/
structure Listed where
  /-- The lines of the conditions right before it. -/
  conditions : List (List Char)
  text : List Char
  /-- The lines in the block that the item opens. -/
  body : List (List Char)
  deriving DecidableEq

def isCondition (row : List Char) : Bool :=
  "#[cfg(".toList.isPrefixOf (row.dropWhile (· == ' ')) && row.getLast? == some ']'

/-- The items of a list, after some conditions or inside a block that ends at a column. Only an
empty line without conditions before it is no item. -/
def listed : List (List Char) → Option ℕ → List (List Char) → List Listed
  | conditions, _, [] => if conditions.isEmpty then [] else [⟨conditions, [], []⟩]
  | conditions, some n, row :: rest =>
    listed conditions (if row = closing n then none else some n) rest
  | conditions, none, row :: rest =>
    if isCondition row then listed (conditions ++ [row]) none rest
    else if conditions.isEmpty && row.isEmpty then listed [] none rest
    else if opensBlock row then
      ⟨conditions, row, rest.takeWhile (· != closing (column row))⟩ ::
        listed [] (some (column row)) rest
    else ⟨conditions, row, []⟩ :: listed [] none rest

def items (rows : List (List Char)) : List Listed := listed [] none rows

theorem listed_block {n : ℕ} {rows : List (List Char)} (h : closing n ∉ rows)
    (rest : List (List Char)) :
    listed [] (some n) (rows ++ closing n :: rest) = items rest := by
  induction rows with
  | nil => simp [listed, items]
  | cons row rows ih =>
    have hrow : row ≠ closing n := fun e => h (e ▸ List.mem_cons_self)
    have hrows : closing n ∉ rows := fun m => h (List.mem_cons_of_mem _ m)
    simp [listed, hrow, ih hrows]

theorem takeWhile_block {n : ℕ} {rows : List (List Char)} (h : closing n ∉ rows)
    (rest : List (List Char)) :
    (rows ++ closing n :: rest).takeWhile (· != closing n) = rows := by
  rw [List.takeWhile_append_of_pos]
  · simp
  · intro row hrow
    simpa using fun e : row = closing n => h (e ▸ hrow)

/-- A text that starts with a character other than a blank. -/
def Starts (text : String) : Prop := text.toList.head?.any (· != ' ') = true

theorem starts_append {a b : String} (h : Starts a) : Starts (a ++ b) := by
  obtain ⟨c, hc, hne⟩ := (Option.any_eq_true _ _).mp h
  rw [Starts, String.toList_append, List.head?_append, hc]
  simpa using hne

theorem Starts.row_ne_nil {text : String} (h : Starts text) (depth : ℕ) :
    Writer.row depth text ≠ [] := by
  obtain ⟨c, hc, -⟩ := (Option.any_eq_true _ _).mp h
  obtain ⟨tail, htail⟩ := List.head?_eq_some_iff.mp hc
  unfold Writer.row
  split
  · next hempty => simp [String.isEmpty_iff.mp hempty] at htail
  · simp [htail]

theorem Starts.column_row {text : String} (h : Starts text) (depth : ℕ) :
    column (Writer.row depth text) = 4 * depth := by
  obtain ⟨c, hc, hne⟩ := (Option.any_eq_true _ _).mp h
  obtain ⟨tail, htail⟩ := List.head?_eq_some_iff.mp hc
  unfold Writer.row
  split
  · next hempty => simp [String.isEmpty_iff.mp hempty] at htail
  · have hblank : (c == ' ') = false := by simpa using hne
    simp [column, htail, hblank]

theorem isCondition_row (depth : ℕ) (text : String) :
    isCondition (Writer.row depth text) = isCondition text.toList := by
  rw [isCondition, isCondition, dropWhile_row, getLast?_row]

theorem opensBlock_row (depth : ℕ) (text : String) :
    opensBlock (Writer.row depth text) = opensBlock text.toList := by
  rw [opensBlock, opensBlock, getLast?_row]

theorem isCondition_cfgAttribute (g : Gate) : isCondition g.cfgAttribute.toList = true := by
  rw [isCondition, getLast?_cfgAttribute]
  unfold Gate.cfgAttribute
  split <;> simp

theorem isCondition_of_last {text : List Char} (h : text.getLast? ≠ some ']') :
    isCondition text = false := by
  simp [isCondition, h]

end Source

namespace Piece

open Source

variable {depth : ℕ} {c : Piece} {cs ds : List Piece} {l l' : List Listed}

/-- A piece of code is one item, whatever conditions stand before it. -/
def IsItem (depth : ℕ) (c : Piece) (text : List Char) (body : List (List Char)) : Prop :=
  ∀ conditions rest, listed conditions none (c.rows depth ++ rest) =
    ⟨conditions, text, body⟩ :: items rest

theorem isItem_line {text : String} (hne : text.toList ≠ [])
    (hc : isCondition text.toList = false) (ho : opensBlock text.toList = false) :
    IsItem depth (.line text) (Writer.row depth text) [] := by
  intro conditions rest
  have hrow : Writer.row depth text ≠ [] := by
    intro h
    have hlast := getLast?_row depth text
    rw [h] at hlast
    exact hne (List.getLast?_eq_none_iff.mp hlast.symm)
  simp [rows, listed, items, isCondition_row, opensBlock_row, hc, ho, hrow]

/-- A block ends where its first line says: every line of its body stands further in. -/
theorem isItem_braces {header : String} (hs : Starts header) (body : List Piece) :
    IsItem depth (.braces header body) (Writer.row depth (header ++ " \x7b"))
      (allRows (depth + 1) body) := by
  intro conditions rest
  have hlast : (header ++ " \x7b").toList.getLast? = some '\x7b' := by
    rw [String.toList_append, List.getLast?_append]
    rfl
  have hstarts : Starts (header ++ " \x7b") := starts_append hs
  have hcondition : isCondition (header ++ " \x7b").toList = false :=
    isCondition_of_last (by rw [hlast]; decide)
  have hopens : opensBlock (header ++ " \x7b").toList = true := by simp [opensBlock]
  have hbody := closing_notMem_allRows depth body
  simp only [Piece.braces, rows, List.cons_append, List.append_assoc, List.nil_append, listed,
    isCondition_row, opensBlock_row, hcondition, hopens, hstarts.column_row,
    row_closing, takeWhile_block hbody, listed_block hbody]
  simp [hstarts.row_ne_nil]

theorem isItem_block {header text : String} {body : List Piece} {inner : List (List Char)}
    (htext : header ++ " \x7b" = text) (hs : Starts header)
    (hinner : allRows (depth + 1) body = inner) :
    IsItem depth (.braces header body) (Writer.row depth text) inner :=
  htext ▸ hinner ▸ isItem_braces hs body

/-- Code is read as some items, whatever follows it. -/
def ReadsAs (depth : ℕ) (cs : List Piece) (l : List Listed) : Prop :=
  ∀ rest, items (allRows depth cs ++ rest) = l ++ items rest

theorem ReadsAs.items_eq (h : ReadsAs depth cs l) : items (allRows depth cs) = l := by
  simpa [items, listed] using h []

theorem readsAs_nil (depth : ℕ) : ReadsAs depth [] [] := fun _ => rfl

theorem ReadsAs.append (h : ReadsAs depth cs l) (h' : ReadsAs depth ds l') :
    ReadsAs depth (cs ++ ds) (l ++ l') := by
  intro rest
  rw [allRows_append, List.append_assoc, h, h', List.append_assoc]

theorem ReadsAs.blank (h : ReadsAs depth cs l) : ReadsAs depth (.blank :: cs) l := by
  intro rest
  have hc : isCondition [] = false := by decide
  rw [← h rest]
  simp [rows, items, listed, hc]

theorem IsItem.cons {text : List Char} {body : List (List Char)} (h : IsItem depth c text body)
    (hcs : ReadsAs depth cs l) : ReadsAs depth (c :: cs) (⟨[], text, body⟩ :: l) := by
  intro rest
  rw [allRows_cons, List.append_assoc, items, h, hcs rest, List.cons_append]

/-- An item under a gate. -/
def gatedItem (depth : ℕ) (gate : Option Gate) (text : String) (body : List (List Char)) : Listed :=
  ⟨(gate.map fun g => Writer.row depth g.cfgAttribute).toList, Writer.row depth text, body⟩

theorem IsItem.guarded {text : String} {body : List (List Char)}
    (h : IsItem depth c (Writer.row depth text) body) (gate : Option Gate) :
    ReadsAs depth [.guarded gate [c]] [gatedItem depth gate text body] := by
  intro rest
  cases gate with
  | none => simpa [rows, items, gatedItem] using h [] rest
  | some g =>
    have hitem := h [Writer.row depth g.cfgAttribute] rest
    simpa [rows, items, gatedItem, listed, isCondition_row, isCondition_cfgAttribute] using hitem

/-- A line that ends in neither a bracket nor a brace. -/
theorem isItem_append {a b : String}
    (h : (b.toList.getLast?.any fun c => c != ']' && c != '\x7b') = true) :
    IsItem depth (.line (a ++ b)) (Writer.row depth (a ++ b)) [] := by
  obtain ⟨c, hc, hne⟩ := (Option.any_eq_true _ _).mp h
  have hlast : (a ++ b).toList.getLast? = some c := by
    rw [String.toList_append, List.getLast?_append, hc, Option.some_or]
  simp only [Bool.and_eq_true, bne_iff_ne] at hne
  apply isItem_line
  · intro hnil
    simp [hnil] at hlast
  · apply isCondition_of_last
    rw [hlast]
    simpa using hne.1
  · rw [opensBlock, hlast]
    simpa using hne.2

end Piece

end TreeSchema
