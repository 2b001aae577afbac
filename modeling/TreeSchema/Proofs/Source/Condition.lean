import TreeSchema.Proofs.Source.Literal
import TreeSchema.Proofs.Source.Piece

/-!
# Conditional lines

What a text becomes once it is known which features are on. A line that holds a condition goes; if
the condition is false, the item after it goes as well, which is a line, or attributes and a block.
A line that cannot be read as a condition stays. For code whose guarded pieces are such items,
deciding the conditions of its lines is the same as leaving out the pieces whose gates mean
something false, and the attributes of the gates that mean anything.
-/

namespace TreeSchema

namespace Source

/-! ### Reading lines -/

theorem dropWhile_row (depth : ℕ) (text : String) :
    (Writer.row depth text).dropWhile (· == ' ') = text.toList.dropWhile (· == ' ') := by
  unfold Writer.row
  split
  · next h => simp [String.isEmpty_iff.mp h]
  · rw [List.dropWhile_append_of_pos]
    simp

theorem getLast?_row (depth : ℕ) (text : String) :
    (Writer.row depth text).getLast? = text.toList.getLast? := by
  unfold Writer.row
  split
  · next h => simp [String.isEmpty_iff.mp h]
  · next h =>
    have hne : text.toList ≠ [] := by simpa using h
    rw [List.getLast?_append, List.getLast?_eq_getLast_of_ne_nil hne, Option.some_or]

/-- The condition that a line holds after its blanks. -/
def condition? (row : List Char) : Option Cfg :=
  attribute? (String.ofList (row.dropWhile (· == ' ')))

/-- The number of blanks before a line. -/
def column (row : List Char) : ℕ := (row.takeWhile (· == ' ')).length

def isAttribute (row : List Char) : Bool :=
  "#[".toList.isPrefixOf (row.dropWhile (· == ' ')) && row.getLast? == some ']'

def opensBlock (row : List Char) : Bool := row.getLast? == some '\x7b'

/-- The line that ends a block whose first line has some blanks before it. -/
def closing (column : ℕ) : List Char := List.replicate column ' ' ++ ['\x7d']

/-- A line with a condition starts and ends like an attribute. -/
theorem eq_of_condition?_eq_some {row : List Char} {c : Cfg} (h : condition? row = some c) :
    (∃ rest, row.dropWhile (· == ' ') = "#[cfg(".toList ++ rest) ∧ row.getLast? = some ']' := by
  obtain ⟨cs, hcs, hlast⟩ := eq_of_attribute?_eq_some h
  rw [String.toList_ofList] at hcs
  refine ⟨⟨cs, hcs⟩, ?_⟩
  obtain ⟨before, rfl⟩ := hlast
  have hrow : row = row.takeWhile (· == ' ') ++ "#[cfg(".toList ++ before ++ [')', ']'] := by
    rw [List.append_assoc, List.append_assoc, ← hcs, List.takeWhile_append_dropWhile]
  rw [hrow, List.getLast?_append]
  rfl

theorem condition?_row (depth : ℕ) (text : String) :
    condition? (Writer.row depth text) = condition? text.toList := by
  unfold condition?
  rw [dropWhile_row]

theorem toList_cfgAttribute (g : Gate) : ∃ rest, g.cfgAttribute.toList = '#' :: rest := by
  unfold Gate.cfgAttribute
  split <;> simp

theorem getLast?_cfgAttribute (g : Gate) : g.cfgAttribute.toList.getLast? = some ']' := by
  unfold Gate.cfgAttribute
  split <;> simp only [String.toList_append, List.getLast?_append] <;> simp

theorem condition?_cfgAttribute (g : Gate) (depth : ℕ) :
    condition? (Writer.row depth g.cfgAttribute) = g.meaning := by
  obtain ⟨rest, hrest⟩ := toList_cfgAttribute g
  have hblanks : g.cfgAttribute.toList.dropWhile (· == ' ') = g.cfgAttribute.toList := by
    simp [hrest]
  rw [condition?_row, condition?, hblanks, String.ofList_toList, Gate.meaning]

theorem column_cfgAttribute (g : Gate) (depth : ℕ) :
    column (Writer.row depth g.cfgAttribute) = 4 * depth := by
  obtain ⟨rest, hrest⟩ := toList_cfgAttribute g
  have hne : g.cfgAttribute.isEmpty = false := by
    rw [Bool.eq_false_iff]
    intro h
    simp [String.isEmpty_iff.mp h] at hrest
  simp [column, Writer.row, hne, hrest]

/-! ### Deciding conditions -/

/-- What is done with the next line. -/
inductive Mode where
  | keep
  /-- An item is left out whose condition stands at the column. -/
  | item (column : ℕ)
  /-- The rest of a block is left out. -/
  | block (column : ℕ)

/-- The lines that remain under a valuation. A block ends with the brace at the column of the
condition that governs it. -/
def decideRows (v : Gate.Valuation) : Mode → List (List Char) → List (List Char)
  | _, [] => []
  | .keep, row :: rest =>
    match condition? row with
    | none => row :: decideRows v .keep rest
    | some c => decideRows v (if c.holds v then .keep else .item (column row)) rest
  | .item n, row :: rest =>
    decideRows v (if isAttribute row then .item n else if opensBlock row then .block n else .keep)
      rest
  | .block n, row :: rest => decideRows v (if row = closing n then .keep else .block n) rest

/-- The rest of a block goes up to the line that ends it. -/
theorem decideRows_block (v : Gate.Valuation) {n : ℕ} {rows : List (List Char)}
    (h : closing n ∉ rows) (rest : List (List Char)) :
    decideRows v (.block n) (rows ++ closing n :: rest) = decideRows v .keep rest := by
  induction rows with
  | nil => simp [decideRows]
  | cons row rows ih =>
    have hrow : row ≠ closing n := fun e => h (e ▸ List.mem_cons_self)
    have hrows : closing n ∉ rows := fun m => h (List.mem_cons_of_mem _ m)
    simp [decideRows, hrow, ih hrows]

/-- A line that holds no condition. -/
def Free (text : String) : Prop := condition? text.toList = none

theorem free_of_last {text : String} (h : text.toList.getLast? ≠ some ']') : Free text := by
  rw [Free, Option.eq_none_iff_forall_ne_some]
  intro c hc
  exact h (eq_of_condition?_eq_some hc).2

theorem free_of_head {text : String} {c : Char} (h : text.toList.head? = some c) (hb : c ≠ ' ')
    (hc : c ≠ '#') : Free text := by
  rw [Free, Option.eq_none_iff_forall_ne_some]
  intro d hd
  obtain ⟨⟨rest, hrest⟩, -⟩ := eq_of_condition?_eq_some hd
  obtain ⟨tail, htail⟩ := List.head?_eq_some_iff.mp h
  rw [htail, List.dropWhile_cons_of_neg (by simpa using hb)] at hrest
  exact hc (List.cons.inj hrest).1

end Source

namespace Piece

open Source

/-- Code that one condition governs: a line, or attributes and a block. -/
inductive Item : List Piece → Prop
  | line {text : String} (last : text.toList.getLast? ≠ some ']')
      (opens : text.toList.getLast? ≠ some '\x7b') : Item [.line text]
  | block {header : String} (body : List Piece) (opens : header.toList.getLast? = some '\x7b') :
      Item [.block header body "\x7d"]
  | marked {text : String} {rest : List Piece} (reads : isAttribute text.toList = true)
      (item : Item rest) : Item (.line text :: rest)

mutual

/-- Every line of the code is as `P` says, and every guarded piece as `Q` says. -/
def Every (P : String → Prop) (Q : Option Gate → List Piece → Prop) : Piece → Prop
  | line text => P text
  | blank => True
  | block header body footer => P header ∧ AllEvery P Q body ∧ P footer
  | twoArmed header first middle second footer =>
    P header ∧ AllEvery P Q first ∧ P middle ∧ AllEvery P Q second ∧ P footer
  | guarded gate item => Q gate item ∧ AllEvery P Q item

def AllEvery (P : String → Prop) (Q : Option Gate → List Piece → Prop) : List Piece → Prop
  | [] => True
  | c :: cs => Every P Q c ∧ AllEvery P Q cs

end

section Every

variable {P : String → Prop} {Q Q' : Option Gate → List Piece → Prop}

theorem allEvery_iff {cs : List Piece} : AllEvery P Q cs ↔ ∀ c ∈ cs, Every P Q c := by
  induction cs with
  | nil => simp [AllEvery]
  | cons c cs ih => simp [AllEvery, ih]

theorem allEvery_append {cs ds : List Piece} :
    AllEvery P Q (cs ++ ds) ↔ AllEvery P Q cs ∧ AllEvery P Q ds := by
  simp only [allEvery_iff, List.forall_mem_append]

theorem allEvery_map {α : Type} {l : List α} {f : α → Piece} (h : ∀ a ∈ l, Every P Q (f a)) :
    AllEvery P Q (l.map f) := by
  rw [allEvery_iff]
  intro c hc
  obtain ⟨a, ha, rfl⟩ := List.mem_map.mp hc
  exact h a ha

theorem allEvery_flatMap {α : Type} {l : List α} {f : α → List Piece}
    (h : ∀ a ∈ l, AllEvery P Q (f a)) : AllEvery P Q (l.flatMap f) := by
  rw [allEvery_iff]
  intro c hc
  obtain ⟨a, ha, hca⟩ := List.mem_flatMap.mp hc
  exact allEvery_iff.mp (h a ha) c hca

mutual

theorem Every.imp (hQ : ∀ gate item, Q gate item → Q' gate item) (c : Piece) (h : Every P Q c) :
    Every P Q' c := by
  cases c with
  | line text => exact h
  | blank => trivial
  | block header body footer => exact ⟨h.1, AllEvery.imp hQ body h.2.1, h.2.2⟩
  | twoArmed header first middle second footer =>
    obtain ⟨hheader, hfirst, hmiddle, hsecond, hfooter⟩ := h
    exact ⟨hheader, AllEvery.imp hQ first hfirst, hmiddle, AllEvery.imp hQ second hsecond, hfooter⟩
  | guarded gate item => exact ⟨hQ gate item h.1, AllEvery.imp hQ item h.2⟩

theorem AllEvery.imp (hQ : ∀ gate item, Q gate item → Q' gate item) (cs : List Piece)
    (h : AllEvery P Q cs) : AllEvery P Q' cs := by
  cases cs with
  | nil => trivial
  | cons c cs => exact ⟨Every.imp hQ c h.1, AllEvery.imp hQ cs h.2⟩

end

end Every

/-- Code without conditions. -/
abbrev Bare (c : Piece) : Prop := Every Free (fun _ _ => False) c

abbrev AllBare (cs : List Piece) : Prop := AllEvery Free (fun _ _ => False) cs

/-- Code whose conditions are those of its guarded pieces, each of which is an item. -/
abbrev Laid (c : Piece) : Prop := Every Free (fun gate item => gate ≠ none → Item item) c

abbrev AllLaid (cs : List Piece) : Prop :=
  AllEvery Free (fun gate item => gate ≠ none → Item item) cs

theorem AllBare.allLaid {cs : List Piece} (h : AllBare cs) : AllLaid cs :=
  AllEvery.imp (fun _ _ hfalse => hfalse.elim) cs h

theorem laid_guarded {gate : Option Gate} {item : List Piece} (hi : Item item)
    (hb : AllBare item) : (guarded gate item).Laid := ⟨fun _ => hi, hb.allLaid⟩

mutual

/-- What remains of a piece of code under a valuation, and of its gates. -/
def decided (v : Gate.Valuation) : Piece → List Piece
  | line text => [line text]
  | blank => [blank]
  | block header body footer => [block header (allDecided v body) footer]
  | twoArmed header first middle second footer =>
    [twoArmed header (allDecided v first) middle (allDecided v second) footer]
  | guarded gate item =>
    if Gate.keeps v gate then [guarded (Gate.unread gate) (allDecided v item)] else []

def allDecided (v : Gate.Valuation) : List Piece → List Piece
  | [] => []
  | c :: cs => decided v c ++ allDecided v cs

end

@[simp] theorem allDecided_append (v : Gate.Valuation) (cs ds : List Piece) :
    allDecided v (cs ++ ds) = allDecided v cs ++ allDecided v ds := by
  induction cs with
  | nil => rfl
  | cons c cs ih => simp [allDecided, ih]

mutual

theorem Bare.decided_eq (v : Gate.Valuation) (c : Piece) (h : c.Bare) : c.decided v = [c] := by
  cases c with
  | line text => rfl
  | blank => rfl
  | block header body footer => rw [decided, AllBare.allDecided_eq v body h.2.1]
  | twoArmed header first middle second footer =>
    rw [decided, AllBare.allDecided_eq v first h.2.1, AllBare.allDecided_eq v second h.2.2.2.1]
  | guarded gate item => exact h.1.elim

theorem AllBare.allDecided_eq (v : Gate.Valuation) (cs : List Piece) (h : AllBare cs) :
    allDecided v cs = cs := by
  cases cs with
  | nil => rfl
  | cons c cs =>
    rw [allDecided, Bare.decided_eq v c h.1, AllBare.allDecided_eq v cs h.2, List.singleton_append]

end

mutual

/-- Some of the lines remain, in their order. -/
theorem rows_decided_sublist (v : Gate.Valuation) (c : Piece) (depth : ℕ) :
    (allRows depth (c.decided v)).Sublist (c.rows depth) := by
  cases c with
  | line text => simp [decided, rows]
  | blank => simp [decided, rows]
  | block header body footer =>
    have hbody := allRows_decided_sublist v body (depth + 1)
    simpa [decided, rows] using hbody
  | twoArmed header first middle second footer =>
    have hfirst := allRows_decided_sublist v first (depth + 1)
    have hsecond := allRows_decided_sublist v second (depth + 1)
    simpa [decided, rows] using hfirst.append ((hsecond.append (.refl _)).cons_cons _)
  | guarded gate item =>
    have hgate : ((Gate.unread gate).map fun g => Writer.row depth g.cfgAttribute).toList.Sublist
        (gate.map fun g => Writer.row depth g.cfgAttribute).toList := by
      cases gate with
      | none => exact .refl _
      | some g => cases hm : g.meaning <;> simp [Gate.unread, Option.filter, hm]
    rw [decided]
    split
    · simpa [rows] using hgate.append (allRows_decided_sublist v item depth)
    · exact List.nil_sublist _

theorem allRows_decided_sublist (v : Gate.Valuation) (cs : List Piece) (depth : ℕ) :
    (allRows depth (allDecided v cs)).Sublist (allRows depth cs) := by
  cases cs with
  | nil => exact .refl _
  | cons c cs =>
    rw [allDecided, allRows_append, allRows_cons]
    exact (rows_decided_sublist v c depth).append (allRows_decided_sublist v cs depth)

end

/-- The line that ends a block does not occur in its body, where all lines stand further in. -/
theorem closing_notMem_allRows (depth : ℕ) (body : List Piece) :
    closing (4 * depth) ∉ allRows (depth + 1) body := by
  intro h
  obtain ⟨d, hd, text, hrow⟩ := exists_row_of_mem_allRows body (depth + 1) h
  unfold Writer.row at hrow
  split at hrow
  · simp [closing] at hrow
  · -- At the place of the brace, the line in the body still has a blank.
    have hlen : 4 * depth < 4 * d := by omega
    have hat := congrArg (·[4 * depth]?) hrow
    simp [closing, hlen, List.getElem?_append_left] at hat

theorem row_closing (depth : ℕ) : Writer.row depth "\x7d" = closing (4 * depth) := rfl

/-- An item whose condition is false goes as a whole. -/
theorem decideRows_item (v : Gate.Valuation) (depth : ℕ) {item : List Piece} (h : Item item)
    (rest : List (List Char)) :
    decideRows v (.item (4 * depth)) (allRows depth item ++ rest) = decideRows v .keep rest := by
  induction h with
  | @line text last opens =>
    simp [rows, decideRows, isAttribute, opensBlock, getLast?_row, last, opens]
  | @block header body opens =>
    have hskip := decideRows_block v (closing_notMem_allRows depth body) rest
    simp [rows, decideRows, isAttribute, opensBlock, getLast?_row, opens, row_closing, hskip]
  | @marked text items reads item ih =>
    have hrow : isAttribute (Writer.row depth text) = true := by
      unfold isAttribute at reads ⊢
      rwa [dropWhile_row, getLast?_row]
    simp [rows, decideRows, hrow, ih]

theorem decideRows_free (v : Gate.Valuation) (depth : ℕ) {text : String} (h : Free text)
    (rest : List (List Char)) : decideRows v .keep (Writer.row depth text :: rest) =
      Writer.row depth text :: decideRows v .keep rest := by
  have hc : condition? (Writer.row depth text) = none := by rwa [condition?_row]
  simp [decideRows, hc]

mutual

/-- Deciding the conditions of the lines is leaving out the pieces whose gates are false. What
follows the piece is arbitrary, so that pieces can be put one after the other. -/
theorem decideRows_rows (v : Gate.Valuation) (c : Piece) (depth : ℕ) (h : c.Laid)
    (rest : List (List Char)) : decideRows v .keep (c.rows depth ++ rest) =
      allRows depth (c.decided v) ++ decideRows v .keep rest := by
  cases c with
  | line text => exact decideRows_free v depth h rest
  | blank =>
    have hc : condition? [] = none := by decide
    simp [rows, decided, decideRows, hc]
  | block header body footer =>
    obtain ⟨hheader, hbody, hfooter⟩ := h
    simp [rows, decided, decideRows_free v _ hheader, decideRows_allRows v body _ hbody,
      decideRows_free v _ hfooter]
  | twoArmed header first middle second footer =>
    obtain ⟨hheader, hfirst, hmiddle, hsecond, hfooter⟩ := h
    simp [rows, decided, decideRows_free v _ hheader, decideRows_allRows v first _ hfirst,
      decideRows_free v _ hmiddle, decideRows_allRows v second _ hsecond,
      decideRows_free v _ hfooter]
  | guarded gate item =>
    obtain ⟨hwhole, hitem⟩ := h
    have hkept := decideRows_allRows v item depth hitem rest
    cases gate with
    | none => simp [rows, decided, Gate.keeps, Gate.unread, hkept]
    | some g =>
      -- An attribute that means something goes; the item is then kept or skipped as a whole.
      have hrow := condition?_cfgAttribute g depth
      have hskip := decideRows_item v depth (hwhole (by simp)) rest
      cases hm : g.meaning with
      | none =>
        simp [rows, decided, Gate.keeps, Gate.unread, Option.filter, decideRows, hrow, hm, hkept]
      | some c =>
        cases hc : c.holds v with
        | true =>
          simp [rows, decided, Gate.keeps, Gate.unread, Option.filter, decideRows, hrow, hm, hc,
            hkept]
        | false =>
          simp [rows, decided, Gate.keeps, decideRows, hrow, hm, hc, column_cfgAttribute, hskip]

theorem decideRows_allRows (v : Gate.Valuation) (cs : List Piece) (depth : ℕ) (h : AllLaid cs)
    (rest : List (List Char)) : decideRows v .keep (allRows depth cs ++ rest) =
      allRows depth (allDecided v cs) ++ decideRows v .keep rest := by
  cases cs with
  | nil => rfl
  | cons c cs =>
    rw [allRows_cons, List.append_assoc, decideRows_rows v c depth h.1,
      decideRows_allRows v cs depth h.2, allDecided, allRows_append, List.append_assoc]

end

end Piece

end TreeSchema
