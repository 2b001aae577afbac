import Mathlib.Data.List.Infix
import Mathlib.Data.List.TakeWhile
import TreeSchema.Document.Yaml.Token.Text

/-!
# White space between and inside tokens

White space and comments stand between tokens, and white space inside them is folded. What a reader
passes over is described by the characters before its place: all of one kind, or with this text
when white space is left out.
-/

namespace TreeSchema.Document.Yaml

variable {cur next mid : Cursor} {fuel : ℕ}

namespace Cursor

@[simp] theorem rest_skip (cur : Cursor) (k : ℕ) : (cur.skip k).rest = cur.rest.drop k := rfl

theorem rest_takeWhile (cur : Cursor) (p : Char → Bool) :
    (cur.takeWhile p).1 ++ (cur.takeWhile p).2.rest = cur.rest :=
  List.prefix_iff_eq_append.mp (List.takeWhile_prefix p)

@[simp] theorem rest_skipWhile (cur : Cursor) (p : Char → Bool) :
    (cur.skipWhile p).rest = cur.rest.dropWhile p := by
  have h := cur.rest_takeWhile p
  rw [← List.takeWhile_append_dropWhile (p := p) (l := cur.rest)] at h
  exact List.append_cancel_left h

theorem rest_of_peek {c : Char} (h : cur.peek = some c) : cur.rest = c :: (cur.skip 1).rest := by
  obtain ⟨tail, htail⟩ := List.head?_eq_some_iff.mp h
  rw [rest_skip, htail, List.drop_succ_cons, List.drop_zero]

/-- Another place with the same text. -/
theorem rest_after {other : Cursor} {c : Char} (h : cur.peek = some c)
    (hrest : other.rest = cur.rest) : cur.rest = c :: (other.skip 1).rest := by
  rw [rest_skip, hrest]
  exact rest_of_peek h

theorem rest_of_ahead {c d : Char} (h : cur.peek = some c) (hd : cur.ahead 1 = some d) :
    cur.rest = c :: d :: (cur.skip 2).rest := by
  obtain ⟨tail, htail⟩ := List.head?_eq_some_iff.mp h
  rw [ahead, htail, List.getElem?_cons_succ, ← List.head?_eq_getElem?] at hd
  obtain ⟨tail', rfl⟩ := List.head?_eq_some_iff.mp hd
  rw [rest_skip, htail, List.drop_succ_cons, List.drop_succ_cons, List.drop_zero]

theorem isBreak_of_separator {c : Char} (h : c.toNat == 0x2028 || c.toNat == 0x2029) :
    isBreak c := by
  simp only [Bool.or_eq_true] at h
  simp only [isBreak, Bool.or_eq_true]
  tauto

/-- The place after a line break. -/
theorem exists_of_breakLine (cur : Cursor) : ∃ ending, cur.rest = ending ++ cur.breakLine.2.rest ∧
    (∀ c ∈ ending, isBreak c) ∧ (cur.peek.any isBreak → ending ≠ []) := by
  unfold breakLine
  split
  · next rest h => exact ⟨['\r', '\n'], h, by simp [isBreak], by simp⟩
  · next c rest _ h =>
    split
    · next hc => exact ⟨[c], h, by simpa using isBreak_of_separator hc, by simp⟩
    · split
      · next hc => exact ⟨[c], h, by simpa using hc, by simp⟩
      · next hc => exact ⟨[], rfl, nofun, by simp [peek, h, hc]⟩
  · next h => exact ⟨[], rfl, nofun, by simp [peek, h]⟩

/-- The text of a line break is a line break. -/
theorem isBreak_of_mem_breakLine {c : Char} (h : c ∈ cur.breakLine.1) : isBreak c := by
  unfold breakLine at h
  split at h
  · obtain rfl := List.mem_singleton.mp h
    decide
  · split at h
    · next hc =>
      obtain rfl := List.mem_singleton.mp h
      exact isBreak_of_separator hc
    · split at h
      · obtain rfl := List.mem_singleton.mp h
        decide
      · cases h
  · cases h

/-- Characters of one kind are passed over. -/
def Passes (p : Char → Bool) (cur next : Cursor) : Prop :=
  ∃ taken, cur.rest = taken ++ next.rest ∧ ∀ c ∈ taken, p c

namespace Passes

variable {p q : Char → Bool}

theorem trans (h : Passes p cur mid) (h' : Passes p mid next) : Passes p cur next := by
  obtain ⟨first, hcur, hfirst⟩ := h
  obtain ⟨second, hmid, hsecond⟩ := h'
  refine ⟨first ++ second, by rw [hcur, hmid, List.append_assoc], fun c hc => ?_⟩
  exact (List.mem_append.mp hc).elim (hfirst c) (hsecond c)

theorem mono (h : Passes p cur next) (hpq : ∀ c, p c → q c) : Passes q cur next := by
  obtain ⟨taken, hcur, htaken⟩ := h
  exact ⟨taken, hcur, fun c hc => hpq c (htaken c hc)⟩

theorem takeWhile (cur : Cursor) (p : Char → Bool) : Passes p cur (cur.takeWhile p).2 :=
  ⟨_, (cur.rest_takeWhile p).symm, fun _ => List.mem_takeWhile_imp⟩

theorem skipWhile (cur : Cursor) (p : Char → Bool) : Passes p cur (cur.skipWhile p) :=
  takeWhile cur p

theorem skip {c : Char} (h : cur.peek = some c) (hc : p c) : Passes p cur (cur.skip 1) :=
  ⟨[c], rest_of_peek h, by simpa using hc⟩

end Passes

end Cursor

/-! ### White space and comments -/

/-- Blanks, line breaks and the byte order mark. -/
def isWhite (c : Char) : Bool := isGap c || isBreak c || c.toNat == 0xFEFF

/-- Only white space and comments stand before the second text, which ends the first. A comment
ends with its line or with the text. -/
inductive Filler : List Char → List Char → Prop where
  | nil (a : List Char) : Filler a a
  | white {c : Char} {a b : List Char} (hc : isWhite c) (h : Filler a b) : Filler (c :: a) b
  | comment {text a b : List Char} (htext : ∀ c ∈ text, ¬isBreak c) (hend : a.head?.all isBreak)
      (h : Filler a b) : Filler ('#' :: (text ++ a)) b

theorem Filler.trans {a b c : List Char} (h : Filler a b) (h' : Filler b c) : Filler a c := by
  induction h with
  | nil a => exact h'
  | white hc _ ih => exact .white hc (ih h')
  | comment htext hend _ ih => exact .comment htext hend (ih h')

theorem Filler.ofWhite {w : List Char} (h : ∀ c ∈ w, isWhite c) (b : List Char) :
    Filler (w ++ b) b := by
  induction w with
  | nil => exact .nil b
  | cons c w ih =>
    exact .white (h c (List.mem_cons_self ..)) (ih fun d hd => h d (List.mem_cons_of_mem _ hd))

theorem Filler.dropWhile {p : Char → Bool} (hp : ∀ c, p c → isWhite c) (cs : List Char) :
    Filler cs (cs.dropWhile p) := by
  have h := Filler.ofWhite (fun c (hc : c ∈ cs.takeWhile p) => hp c (List.mem_takeWhile_imp hc))
    (cs.dropWhile p)
  rwa [List.takeWhile_append_dropWhile] at h

theorem head?_dropWhile_not_break (cs : List Char) :
    ((cs.dropWhile fun c => !isBreak c).head?).all isBreak := by
  have h := List.head?_dropWhile_not (fun c => !isBreak c) cs
  cases hcs : (cs.dropWhile fun c => !isBreak c).head? with
  | none => rfl
  | some c => simpa [hcs] using h

/-- The rest of a line from the mark of a comment on. -/
theorem Filler.ofComment {cs : List Char} (h : cs.head? = some '#') :
    Filler cs (cs.dropWhile fun c => !isBreak c) := by
  obtain ⟨tail, rfl⟩ := List.head?_eq_some_iff.mp h
  have hend := head?_dropWhile_not_break tail
  have hmark : ('#' :: tail).dropWhile (fun c => !isBreak c) =
      tail.dropWhile fun c => !isBreak c := List.dropWhile_cons_of_pos (by decide)
  rw [hmark]
  nth_rewrite 1 [← List.takeWhile_append_dropWhile (p := fun c => !isBreak c) (l := tail)]
  refine .comment (fun c hc => ?_) hend (.nil _)
  simpa using List.mem_takeWhile_imp hc

theorem Filler.suffix {a b : List Char} (h : Filler a b) : b <:+ a := by
  induction h with
  | nil a => exact List.suffix_rfl
  | white _ _ ih => exact ih.trans (List.suffix_cons _ _)
  | comment _ _ _ ih =>
    exact ih.trans ((List.suffix_append _ _).trans (List.suffix_cons _ _))

theorem Filler.breakLine (cur : Cursor) : Filler cur.rest cur.breakLine.2.rest := by
  obtain ⟨ending, hcur, hending, -⟩ := cur.exists_of_breakLine
  rw [hcur]
  exact .ofWhite (fun c hc => by simp [isWhite, hending c hc]) _

/-- The second text starts on the next line, and only blanks and a comment end this one. -/
inductive LineEnd : List Char → List Char → Prop where
  | mk {blanks comment ending b : List Char} (hblanks : ∀ c ∈ blanks, isGap c)
      (hmark : ∀ c ∈ comment.head?, c = '#') (hcomment : ∀ c ∈ comment, ¬isBreak c)
      (hending : ∀ c ∈ ending, isBreak c) (hlast : ending = [] → b = []) :
      LineEnd (blanks ++ (comment ++ (ending ++ b))) b

theorem LineEnd.suffix {a b : List Char} (h : LineEnd a b) : b <:+ a := by
  obtain ⟨-, -, -, -, -⟩ := h
  exact ((List.suffix_append _ b).trans (List.suffix_append _ _)).trans (List.suffix_append _ _)

theorem lineEnd_of_readLineEnd (h : Token.readLineEnd cur = some next) :
    LineEnd cur.rest next.rest := by
  simp only [Token.readLineEnd] at h
  obtain ⟨blanks, hblanks, hgap⟩ := Cursor.Passes.skipWhile cur isGap
  generalize cur.skipWhile isGap = mid at h hblanks
  generalize hlast : (if mid.peek == some '#' then mid.skipWhile fun c => !isBreak c else mid) =
    last at h
  have hcomment : ∃ comment, mid.rest = comment ++ last.rest ∧ (∀ c ∈ comment.head?, c = '#') ∧
      ∀ c ∈ comment, ¬isBreak c := by
    subst hlast
    split
    · next hmark =>
      obtain ⟨comment, hmid, hinside⟩ := Cursor.Passes.skipWhile mid fun c => !isBreak c
      refine ⟨comment, hmid, fun c hc => ?_, fun c hc => by simpa using hinside c hc⟩
      have hhead : mid.rest.head? = some c := by
        rw [hmid, List.head?_append, Option.mem_def.mp hc, Option.some_or]
      exact Option.some_inj.mp (hhead.symm.trans (beq_iff_eq.mp hmark))
    · exact ⟨[], rfl, nofun, nofun⟩
  obtain ⟨comment, hmid, hmark, hinside⟩ := hcomment
  obtain ⟨ending, hnext, hending, hnil⟩ : ∃ ending, last.rest = ending ++ next.rest ∧
      (∀ c ∈ ending, isBreak c) ∧ (ending = [] → next.rest = []) := by
    split at h
    · next hpeek =>
      cases h
      exact ⟨[], rfl, nofun, fun _ => List.head?_eq_none_iff.mp hpeek⟩
    · next c hpeek =>
      split at h
      · next hc =>
        cases h
        obtain ⟨ending, hlast, hending, hne⟩ := last.exists_of_breakLine
        exact ⟨ending, hlast, hending, fun hnil => absurd hnil (hne (by rw [hpeek]; exact hc))⟩
      · cases h
  rw [hblanks, hmid, hnext]
  exact .mk hgap hmark hinside hending hnil

/-! ### Words and white space -/

/-- The characters that are neither blanks nor line breaks. -/
def isInk (c : Char) : Bool := !endsWord (some c)

/-- A text without its white space. -/
def ink (cs : List Char) : List Char := cs.filter isInk

@[simp] theorem ink_nil : ink [] = [] := rfl

@[simp] theorem ink_append (a b : List Char) : ink (a ++ b) = ink a ++ ink b :=
  List.filter_append ..

theorem ink_eq_nil_iff {cs : List Char} : ink cs = [] ↔ ∀ c ∈ cs, endsWord (some c) := by
  simp [ink, isInk]

theorem ink_of_breaks {cs : List Char} (h : ∀ c ∈ cs, isBreak c) : ink cs = [] :=
  ink_eq_nil_iff.mpr fun c hc => by simp [endsWord, h c hc]

theorem ink_breakLine (cur : Cursor) : ink cur.breakLine.1 = [] :=
  ink_of_breaks fun _ => Cursor.isBreak_of_mem_breakLine

/-- What is passed over, without its white space. -/
def Cursor.Inks (out : List Char) (cur next : Cursor) : Prop :=
  ∃ taken, cur.rest = taken ++ next.rest ∧ ink taken = out

namespace Cursor.Inks

variable {out out' : List Char}

theorem refl (cur : Cursor) : Inks [] cur cur := ⟨[], rfl, rfl⟩

theorem trans (h : Inks out cur mid) (h' : Inks out' mid next) : Inks (out ++ out') cur next := by
  obtain ⟨first, hcur, rfl⟩ := h
  obtain ⟨second, hmid, rfl⟩ := h'
  exact ⟨first ++ second, by rw [hcur, hmid, List.append_assoc], ink_append ..⟩

/-- First white space is passed over. -/
theorem blank_trans (h : Inks [] cur mid) (h' : Inks out mid next) : Inks out cur next :=
  h.trans h'

theorem skip {c : Char} (h : cur.peek = some c) : Inks (ink [c]) cur (cur.skip 1) :=
  ⟨[c], rest_of_peek h, rfl⟩

theorem breakLine (cur : Cursor) : Inks [] cur cur.breakLine.2 := by
  obtain ⟨ending, hcur, hending, -⟩ := cur.exists_of_breakLine
  exact ⟨ending, hcur, ink_of_breaks hending⟩

end Cursor.Inks

namespace Gap

/-- A gap has only blanks and line breaks. -/
structure Blank (g : Gap) : Prop where
  blanks : ink g.blanks = []
  first : ink g.first = []
  more : ink g.more = []

theorem Blank.text {g : Gap} (h : g.Blank) : ink g.text = [] := by
  unfold Gap.text
  split
  · exact h.blanks
  · split
    · split
      · rfl
      · exact h.more
    · rw [ink_append, h.first, h.more, List.append_nil]

theorem blank_of_read {margin : ℕ} {g g' : Gap} (h : read margin fuel g cur = some (g', next))
    (hg : g.Blank) : g'.Blank ∧ Cursor.Inks [] cur next := by
  induction fuel generalizing g cur with
  | zero => cases h
  | succ fuel ih =>
    simp only [read] at h
    split at h
    · cases h
      exact ⟨hg, .refl _⟩
    · next c hpeek =>
      split at h
      · next hc =>
        have hblank : ink [c] = [] := by simp [ink, isInk, endsWord, hc]
        have hskip : Cursor.Inks [] cur (cur.skip 1) := hblank ▸ .skip hpeek
        split at h
        · cases h
        · split at h
          · obtain ⟨hg', hnext⟩ := ih h hg
            exact ⟨hg', hskip.trans hnext⟩
          · obtain ⟨hg', hnext⟩ := ih h
              ⟨by rw [ink_append, hg.blanks, hblank, List.append_nil], hg.first, hg.more⟩
            exact ⟨hg', hskip.trans hnext⟩
      · split at h
        · have hline := Cursor.Inks.breakLine cur
          have htext := ink_breakLine cur
          split at h
          · obtain ⟨hg', hnext⟩ := ih h
              ⟨hg.blanks, hg.first, by rw [ink_append, hg.more, htext, List.append_nil]⟩
            exact ⟨hg', hline.trans hnext⟩
          · obtain ⟨hg', hnext⟩ := ih h ⟨rfl, htext, hg.more⟩
            exact ⟨hg', hline.trans hnext⟩
        · cases h
          exact ⟨hg, .refl _⟩

end Gap

end TreeSchema.Document.Yaml
