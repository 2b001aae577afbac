import TreeSchema.Proofs.Pieces
import TreeSchema.Proofs.Plain

/-!
# Balanced writing

Code is written by requests to a writer: lines, and the starts and ends of blocks. Nothing about a
list of requests makes it balanced; but those of a tree are, and so is the code of every plan.
Whatever the depth at which the writer stands, it comes back to it and never goes further out, so
that a block is only ended where one has been started. The depth makes no other difference than to
indent what is written at the left margin.
-/

namespace TreeSchema

open Checked Piece

namespace Text

/-- A line further to the right; an empty line stays empty. -/
def indentedRow (n : ℕ) (row : List Char) : List Char :=
  if row.isEmpty then [] else List.replicate n ' ' ++ row

/-- A text with every line further to the right that is not empty. -/
def indented (n : ℕ) (text : List Char) : List Char :=
  ['\n'].intercalate ((split '\n' text).map (indentedRow n))

theorem unlines_eq_intercalate (rows : List (List Char)) :
    unlines rows = ['\n'].intercalate (rows ++ [[]]) := by
  induction rows with
  | nil => simp
  | cons row rows ih =>
    have hne : rows ++ [[]] ≠ [] := by simp
    obtain ⟨first, rest, hcons⟩ := List.exists_cons_of_ne_nil hne
    rw [unlines_cons, ih, List.cons_append, hcons, List.intercalate_cons_cons]
    simp

theorem indented_unlines {rows : List (List Char)} (n : ℕ) (h : ∀ row ∈ rows, '\n' ∉ row) :
    indented n (unlines rows) = unlines (rows.map (indentedRow n)) := by
  rw [indented, split_unlines h, unlines_eq_intercalate, List.map_append]
  rfl

end Text

/-- The requests that go one level further out, if only for one line. -/
def Request.outdents : Request → Bool
  | closeBlock _ => true
  | reopenBlock _ => true
  | _ => false

namespace Writer

@[simp] theorem depth_openBlock (w : Writer) (text : String) :
    (w.openBlock text).depth = w.depth + 1 := by
  simp [openBlock]

@[simp] theorem depth_closeBlock (w : Writer) (text : String) :
    (w.closeBlock text).depth = w.depth - 1 := depth_line _ text

@[simp] theorem depth_reopenBlock (w : Writer) (text : String) :
    (w.reopenBlock text).depth = w.depth - 1 + 1 := by
  simp [reopenBlock]

/-- The requests never lead further out than `depth`, and each that goes further out has at least
one level to go. -/
def Within (depth : ℕ) : Writer → Code → Prop
  | w, [] => depth ≤ w.depth
  | w, r :: code =>
    depth ≤ w.depth ∧ (r.outdents = true → depth < w.depth) ∧ Within depth (r.obey w) code

/-- Ending a block that was not started leads further out. -/
example : ¬ Within 1 ⟨"", 1⟩ [.openBlock "\x7b", .closeBlock "\x7d", .closeBlock "\x7d"] := by
  simp [Within, Request.obey, Request.outdents]

theorem within_append {depth : ℕ} {w : Writer} {code code' : Code} :
    Within depth w (code ++ code') ↔ Within depth w code ∧ Within depth (w.obey code) code' := by
  induction code generalizing w with
  | nil =>
    refine (and_iff_right_of_imp fun h => ?_).symm
    cases code' with
    | nil => exact h
    | cons r code' => exact h.1
  | cons r code ih => simp only [List.cons_append, Within, ih, obey_cons, and_assoc]

theorem Within.mono {depth outer : ℕ} (ho : outer ≤ depth) {w : Writer} {code : Code}
    (h : Within depth w code) : Within outer w code := by
  induction code generalizing w with
  | nil => exact ho.trans h
  | cons r code ih => exact ⟨ho.trans h.1, fun hr => ho.trans_lt (h.2.1 hr), ih h.2.2⟩

end Writer

namespace Piece

open Writer (Within)

mutual

/-- After a piece of code, the writer is back at its depth. -/
theorem depth_requests (c : Piece) (w : Writer) : (w.obey c.requests).depth = w.depth := by
  cases c with
  | line text => simp [requests, Request.obey]
  | blank => rfl
  | block header body footer => simp [requests, Request.obey, depth_allRequests body]
  | twoArmed header first middle second footer =>
    simp [requests, Request.obey, depth_allRequests first, depth_allRequests second]
  | guarded gate item =>
    simp [requests, Request.obey, depth_allRequests item, Writer.depth_gate]

theorem depth_allRequests (cs : List Piece) (w : Writer) :
    (w.obey (allRequests cs)).depth = w.depth := by
  cases cs with
  | nil => rfl
  | cons c cs =>
    rw [allRequests_cons, Writer.obey_append, depth_allRequests cs, depth_requests c]

end

/-- The lines of a block are written one level further in, before a request that ends them. -/
theorem within_inside {depth : ℕ} {w : Writer} {cs : List Piece} {r : Request} {rest : Code}
    (hw : w.depth = depth + 1) (hcs : Within w.depth w (allRequests cs))
    (hrest : Within depth (r.obey (w.obey (allRequests cs))) rest) :
    Within depth w (allRequests cs ++ r :: rest) := by
  refine Writer.within_append.mpr ⟨hcs.mono (by omega), ?_, fun _ => ?_, hrest⟩
  · rw [depth_allRequests]
    omega
  · rw [depth_allRequests]
    omega

mutual

/-- A piece of code is written without leaving the depth at which it starts. -/
theorem within_requests (c : Piece) (w : Writer) : Within w.depth w c.requests := by
  cases c with
  | line text => exact ⟨le_rfl, nofun, by simp [Within, Request.obey]⟩
  | blank => exact ⟨le_rfl, nofun, le_rfl⟩
  | block header body footer =>
    refine ⟨le_rfl, nofun, within_inside (by simp [Request.obey]) (within_allRequests body _) ?_⟩
    simp [Within, Request.obey, depth_allRequests]
  | twoArmed header first middle second footer =>
    simp only [requests, List.cons_append, List.append_assoc]
    refine ⟨le_rfl, nofun, within_inside (by simp [Request.obey]) (within_allRequests first _) ?_⟩
    refine within_inside (by simp [Request.obey, depth_allRequests])
      (within_allRequests second _) ?_
    simp [Within, Request.obey, depth_allRequests]
  | guarded gate item =>
    have hitem := within_allRequests item (w.gate gate)
    rw [Writer.depth_gate] at hitem
    exact ⟨le_rfl, nofun, hitem⟩

theorem within_allRequests (cs : List Piece) (w : Writer) :
    Within w.depth w (allRequests cs) := by
  cases cs with
  | nil => exact le_rfl
  | cons c cs =>
    have hrest := within_allRequests cs (w.obey c.requests)
    rw [depth_requests] at hrest
    exact Writer.within_append.mpr ⟨within_requests c w, hrest⟩

end

/-! ### Indentation -/

theorem row_add (depth k : ℕ) (text : String) :
    Writer.row (depth + k) text = Text.indentedRow (4 * depth) (Writer.row k text) := by
  unfold Writer.row Text.indentedRow
  by_cases h : text = ""
  · simp [h]
  · simp [h, Nat.mul_add, ← List.replicate_append_replicate]

mutual

theorem rows_add (c : Piece) (depth k : ℕ) :
    c.rows (depth + k) = (c.rows k).map (Text.indentedRow (4 * depth)) := by
  cases c with
  | line text => simp [rows, row_add]
  | blank => simp [rows, Text.indentedRow]
  | block header body footer =>
    have hbody := allRows_add body depth (k + 1)
    simp [rows, row_add, Nat.add_assoc, hbody]
  | twoArmed header first middle second footer =>
    have hfirst := allRows_add first depth (k + 1)
    have hsecond := allRows_add second depth (k + 1)
    simp [rows, row_add, Nat.add_assoc, hfirst, hsecond]
  | guarded gate item =>
    have hitem := allRows_add item depth k
    cases gate <;> simp [rows, row_add, hitem]

theorem allRows_add (cs : List Piece) (depth k : ℕ) :
    allRows (depth + k) cs = (allRows k cs).map (Text.indentedRow (4 * depth)) := by
  cases cs with
  | nil => rfl
  | cons c cs => rw [allRows_cons, allRows_cons, List.map_append, rows_add, allRows_add]

end

/-- What is written at some depth is what is written at the left margin, indented. -/
theorem toList_obey {cs : List Piece} (h : (allRequests cs).Plain) (w : Writer) :
    (w.obey (allRequests cs)).text.toList =
      w.text.toList ++ Text.indented (4 * w.depth) (Code.text (allRequests cs)).toList := by
  have hrows := allRows_add cs w.depth 0
  have hplain := Code.newline_notMem_rows h 0
  rw [Code.toList_text, Text.indented_unlines _ hplain, Code.text_obey, rows_allRequests,
    rows_allRequests, ← hrows, String.toList_append, String.toList_ofList, Nat.add_zero]

end Piece

/-- The code that is written for the plans of a schema: for a kind, for the children of a kind, and
for the view. -/
inductive Schema.Writes (s : Schema) : Code → Prop where
  | kind {p : Positions} {strict : Bool} {e : Entry} {k : KindPlan} (entry : e ∈ s.entries)
      (planned : KindPlan.ofEntry s p strict e = .ok k) : Writes s (k.code s)
  | children {e : Entry} {plan : ChildrenPlan} (entry : e ∈ s.entries)
      (planned : ChildrenPlan.ofEntry s e = .ok plan) : Writes s (plan.code e.displayName)
  | view {p : Positions} {v : ViewPlan} (planned : ViewPlan.ofSchema s p = .ok v) : Writes s v.code

theorem Schema.Writes.exists_pieces {s : Schema} {code : Code} (h : s.Writes code) :
    ∃ cs, code = allRequests cs := by
  cases h with
  | kind => exact ⟨_, KindPlan.code_eq s _⟩
  | children => exact ⟨_, ChildrenPlan.code_eq _ _⟩
  | view => exact ⟨_, ViewPlan.code_eq _⟩

theorem Schema.Writes.plain {d : Draft} {s : Schema} (hs : ofDraft d = .ok s) {code : Code}
    (h : s.Writes code) : code.Plain := by
  cases h with
  | kind he hk => exact KindPlan.plain_code hs he hk
  | @children e plan he hplan =>
    have hcase : ViewCase.ofEntry s ⟨[]⟩ e = .ok ⟨e, _, _, plan⟩ :=
      map_eq_ok_iff.mpr ⟨plan, hplan, rfl⟩
    exact (ViewCase.plain_of_ofEntry hs he hcase).children
  | view hv =>
    refine ViewPlan.plain_code fun c hc => ?_
    obtain ⟨e, he, hcase⟩ := exists_of_mem_collect (ViewPlan.cases_of_ofSchema hv) hc
    exact ViewCase.plain_of_ofEntry hs (List.mem_filter.mp he).1 hcase

/-- The plans of a loaded schema are written by requests that never lead out of the depth at which
the writer stands, and end a block only further in. The writer comes back to its depth, and has
added what it would have written at the left margin, with four blanks for each level before every
line that is not empty. -/
theorem writing_keeps_depth {d : Draft} {s : Schema} (hs : Schema.ofDraft d = .ok s) {code : Code}
    (h : s.Writes code) (w : Writer) :
    (∀ done r rest, code = done ++ r :: rest →
      w.depth ≤ (w.obey done).depth ∧ (r.outdents = true → w.depth < (w.obey done).depth)) ∧
    (w.obey code).depth = w.depth ∧
    (w.obey code).text.toList =
      w.text.toList ++ Text.indented (4 * w.depth) (Code.text code).toList := by
  have hplain := h.plain hs
  obtain ⟨cs, rfl⟩ := h.exists_pieces
  refine ⟨?_, depth_allRequests cs w, toList_obey hplain w⟩
  intro done r rest heq
  have hwithin := within_allRequests cs w
  rw [heq] at hwithin
  obtain ⟨-, hdepth, houtdents, -⟩ := Writer.within_append.mp hwithin
  exact ⟨hdepth, houtdents⟩

/-- The view of a schema, written one level further in than the left margin. -/
theorem Dialects.view_keeps_depth :
    ViewPlan.ofSchema schema (Positions.analyze schema) = .ok view ∧
      (Writer.obey ⟨"// A view\n", 1⟩ view.code).depth = 1 ∧
      (Writer.obey ⟨"// A view\n", 1⟩ view.code).text.toList =
        "// A view\n".toList ++ Text.indented 4 (Code.text view.code).toList := by
  have hs : Schema.ofDraft draft = .ok schema := Schema.ofDraft_eq_ok (by decide +kernel)
  have hv : ViewPlan.ofSchema schema (Positions.analyze schema) = .ok view := by decide +kernel
  obtain ⟨-, hdepth, htext⟩ := writing_keeps_depth hs (.view hv) ⟨"// A view\n", 1⟩
  exact ⟨hv, hdepth, htext⟩

end TreeSchema
