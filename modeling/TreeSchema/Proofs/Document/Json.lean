import Mathlib.Data.List.TakeWhile
import TreeSchema.Document.Json
import TreeSchema.Proofs.Checked

/-!
# What a reading in bracket notation depends on

A reader takes the first characters of a text, and what it makes of them depends on nothing that
follows, except that a number ends before the first character that cannot belong to it. The
outermost mapping ends with its bracket, so what follows the bracket is never looked at.
-/

namespace TreeSchema.Document.Json

open Checked (bind_eq_ok_iff mapError_eq_ok_iff)

variable {α β : Type} {cs rest : List Char} {fuel depth : ℕ}

theorem takeWhile_append_dropWhile_congr {p : Char → Bool} {rest' : List Char}
    (h : rest'.head? = (cs.dropWhile p).head?) :
    (cs.takeWhile p ++ rest').takeWhile p = cs.takeWhile p ∧
      (cs.takeWhile p ++ rest').dropWhile p = rest' := by
  have hin : ∀ c ∈ cs.takeWhile p, p c := fun _ => List.mem_takeWhile_imp
  rw [List.takeWhile_append_of_pos hin, List.dropWhile_append_of_pos hin]
  cases rest' with
  | nil => simp
  | cons c rest' =>
    have hc := List.head?_dropWhile_not p cs
    rw [← h, List.head?_cons] at hc
    simpa using hc

/-- The first character after blanks is found again, whatever follows it. -/
theorem skipBlanks_eq_cons {c : Char} {tail : List Char} (h : skipBlanks cs = c :: tail) :
    ∃ blanks, cs = blanks ++ c :: tail ∧
      ∀ tail', skipBlanks (blanks ++ c :: tail') = c :: tail' := by
  refine ⟨cs.takeWhile isBlank, ?_, fun tail' => ?_⟩
  · rw [← h, skipBlanks, List.takeWhile_append_dropWhile]
  · refine (takeWhile_append_dropWhile_congr ?_).2
    rw [← skipBlanks, h, List.head?_cons, List.head?_cons]

/-! ### Readers that see one character ahead -/

/-- What a reader makes of the characters that it takes depends on the next character at most. -/
def Local (read : List Char → Option (α × List Char)) : Prop :=
  ∀ ⦃cs a rest⦄, read cs = some (a, rest) → ∃ used, cs = used ++ rest ∧
    ∀ rest', rest'.head? = rest.head? → read (used ++ rest') = some (a, rest')

theorem head?_append_congr {used rest rest' : List Char} (h : rest'.head? = rest.head?) :
    (used ++ rest').head? = (used ++ rest).head? := by
  rw [List.head?_append, List.head?_append, h]

namespace Local

variable {read : List Char → Option (α × List Char)}

theorem pure (a : α) : Local fun cs => some (a, cs) := by
  rintro cs _ _ ⟨⟩
  exact ⟨[], rfl, fun _ _ => rfl⟩

theorem bind {next : α → List Char → Option (β × List Char)} (h : Local read)
    (hnext : ∀ a, Local (next a)) : Local fun cs => (read cs).bind fun r => next r.1 r.2 := by
  intro cs b rest hread
  obtain ⟨⟨a, mid⟩, ha, hb⟩ := Option.bind_eq_some_iff.mp hread
  obtain ⟨used, rfl, hused⟩ := h ha
  obtain ⟨more, rfl, hmore⟩ := hnext a hb
  refine ⟨used ++ more, by simp, fun rest' hrest => ?_⟩
  dsimp only
  rw [List.append_assoc, hused _ (head?_append_congr hrest)]
  exact hmore rest' hrest

theorem map (h : Local read) (f : α → β) : Local fun cs => (read cs).map fun r => (f r.1, r.2) := by
  simp only [Option.map_eq_bind]
  exact h.bind fun a => pure (f a)

theorem filter (h : Local read) (p : α → Bool) : Local fun cs => (read cs).filter (p ·.1) := by
  intro cs a rest hread
  obtain ⟨hread, hp⟩ := Option.filter_eq_some_iff.mp hread
  obtain ⟨used, rfl, hused⟩ := h hread
  refine ⟨used, rfl, fun rest' hrest => ?_⟩
  exact Option.filter_eq_some_iff.mpr ⟨hused rest' hrest, hp⟩

/-- The first character decides how a reader goes on. -/
theorem ofMark {first other : List Char → Option (α × List Char)} (mark : Char → Bool)
    (hfirst : Local first) (hother : Local other)
    (eq_first : ∀ c cs, mark c → read (c :: cs) = first cs)
    (eq_other : ∀ cs, cs.head?.any mark = false → read cs = other cs) : Local read := by
  intro cs a rest hread
  cases hmark : cs.head?.any mark with
  | true =>
    obtain ⟨c, cs, rfl⟩ : ∃ c cs', cs = c :: cs' := by cases cs <;> simp at hmark ⊢
    have hc : mark c := by simpa using hmark
    rw [eq_first c cs hc] at hread
    obtain ⟨used, rfl, hused⟩ := hfirst hread
    refine ⟨c :: used, rfl, fun rest' hrest => ?_⟩
    rw [List.cons_append, eq_first _ _ hc, hused rest' hrest]
  | false =>
    rw [eq_other cs hmark] at hread
    obtain ⟨used, rfl, hused⟩ := hother hread
    refine ⟨used, rfl, fun rest' hrest => ?_⟩
    rw [eq_other _ (head?_append_congr hrest ▸ hmark), hused rest' hrest]

end Local

theorem local_readDigits? : Local readDigits? := by
  intro cs digits rest h
  simp only [readDigits?] at h
  split at h
  · cases h
  · next hne =>
    cases h
    refine ⟨cs.takeWhile Char.isDigit, List.takeWhile_append_dropWhile.symm, fun rest' hrest => ?_⟩
    obtain ⟨htake, hdrop⟩ := takeWhile_append_dropWhile_congr hrest
    simp only [readDigits?, htake, hdrop, if_neg hne]

theorem local_readMinus : Local fun cs => some (readMinus cs) := by
  refine .ofMark (· == '-') (.pure true) (.pure false) ?_ ?_
  · rintro c cs hc
    rw [beq_iff_eq] at hc
    rw [hc, readMinus]
  · intro cs hcs
    rw [readMinus]
    rintro rest rfl
    simp at hcs

theorem local_readSign : Local fun cs => some (readSign cs) := by
  refine .ofMark (· == '+') (.pure false) local_readMinus ?_ ?_
  · rintro c cs hc
    rw [beq_iff_eq] at hc
    rw [hc, readSign]
  · intro cs hcs
    rw [readSign]
    rintro rest rfl
    simp at hcs

theorem local_readFraction? : Local readFraction? := by
  refine .ofMark (· == '.') (local_readDigits?.map some) (.pure none) ?_ ?_
  · rintro c cs hc
    rw [beq_iff_eq] at hc
    rw [hc, readFraction?]
  · intro cs hcs
    rw [readFraction?]
    rintro rest rfl
    simp at hcs

theorem local_readExponent? : Local readExponent? := by
  refine .ofMark (fun c => c == 'e' || c == 'E')
    (local_readSign.bind fun down => local_readDigits?.map fun d => some (down, d))
    (.pure none) ?_ ?_
  · intro c cs hc
    rw [readExponent?, if_pos hc]
    rfl
  · intro cs hcs
    cases cs with
    | nil => rfl
    | cons c cs => rw [readExponent?, if_neg (by simpa using hcs)]

theorem local_readNumeral? : Local readNumeral? := by
  have hrest (negative : Bool) (whole : List Char) : Local fun rest =>
      if whole.length > 1 && whole.head? == some '0' then none
      else (readFraction? rest).bind fun f => (readExponent? f.2).bind fun e =>
        some ((⟨negative, whole, f.1, e.1⟩ : Numeral), e.2) := by
    split
    · exact nofun
    · exact local_readFraction?.bind fun fraction => local_readExponent?.bind fun exponent =>
        .pure (Numeral.mk negative whole fraction exponent)
  exact local_readMinus.bind fun negative => local_readDigits?.bind fun whole =>
    hrest negative whole

theorem local_readNumber? : Local readNumber? := local_readNumeral?.filter Numeral.inRange

/-! ### Readers that see nothing ahead -/

theorem readUnit?_append {n : ℕ} (h : readUnit? cs = some (n, rest)) :
    ∃ used, cs = used ++ rest ∧ ∀ rest', readUnit? (used ++ rest') = some (n, rest') := by
  unfold readUnit? at h
  split at h
  · next a b c d rest =>
    obtain ⟨m, hm, ⟨⟩⟩ := Option.map_eq_some_iff.mp h
    refine ⟨[a, b, c, d], rfl, fun rest' => ?_⟩
    simp only [List.cons_append, List.nil_append, readUnit?, hm, Option.map_some]
  · cases h

theorem readCodePoint?_append {c : Char} (h : readCodePoint? cs = some (c, rest)) :
    ∃ used, cs = used ++ rest ∧ ∀ rest', readCodePoint? (used ++ rest') = some (c, rest') := by
  obtain ⟨⟨high, mid⟩, hhigh, hmid⟩ := Option.bind_eq_some_iff.mp h
  obtain ⟨used, rfl, hused⟩ := readUnit?_append hhigh
  clear h
  dsimp only at hmid
  split at hmid
  · next hpair =>
    split at hmid
    · next tail =>
      obtain ⟨⟨low, tail⟩, hlow, htail⟩ := Option.bind_eq_some_iff.mp hmid
      obtain ⟨more, rfl, hmore⟩ := readUnit?_append hlow
      clear hmid
      dsimp only at htail
      split at htail
      · next hlow =>
        obtain ⟨rfl, rfl⟩ := Prod.mk.inj (Option.some.inj htail)
        refine ⟨used ++ '\\' :: 'u' :: more, by simp, fun rest' => ?_⟩
        simp only [readCodePoint?, List.append_assoc, List.cons_append, hused, hmore, if_pos hpair,
          if_pos hlow, Option.bind_eq_bind, Option.bind_some]
        rfl
      · cases htail
    · cases hmid
  · next hpair =>
    split at hmid
    · cases hmid
    · next hlow =>
      cases hmid
      refine ⟨used, rfl, fun rest' => ?_⟩
      simp only [readCodePoint?, hused, if_neg hpair, if_neg hlow, Option.bind_eq_bind,
        Option.bind_some]
      rfl

/-- Each character of a text takes one step. -/
theorem readText_append {text : List Char} {s : String}
    (h : readText fuel text cs = some (s, rest)) : ∃ used, cs = used ++ rest ∧
      ∀ m ≥ used.length, ∀ rest', readText m text (used ++ rest') = some (s, rest') := by
  induction fuel generalizing text cs with
  | zero => cases h
  | succ fuel ih =>
    unfold readText at h
    split at h
    · cases h
    · cases h
      refine ⟨['"'], rfl, fun m hm rest' => ?_⟩
      obtain ⟨m, rfl⟩ := Nat.exists_eq_add_one_of_ne_zero (by simpa using Nat.ne_of_gt hm)
      simp [readText]
    · next tail =>
      obtain ⟨⟨c, tail⟩, hc, hread⟩ := Option.bind_eq_some_iff.mp h
      obtain ⟨point, rfl, hpoint⟩ := readCodePoint?_append hc
      obtain ⟨used, rfl, hused⟩ := ih hread
      refine ⟨'\\' :: 'u' :: (point ++ used), by simp, fun m hm rest' => ?_⟩
      simp only [List.length_cons, List.length_append] at hm
      obtain ⟨m, rfl⟩ := Nat.exists_eq_add_one_of_ne_zero (by omega : m ≠ 0)
      simp [readText, hpoint, hused m (by omega)]
    · next c tail hu =>
      obtain ⟨d, hd, hread⟩ := Option.bind_eq_some_iff.mp h
      obtain ⟨used, rfl, hused⟩ := ih hread
      refine ⟨'\\' :: c :: used, rfl, fun m hm rest' => ?_⟩
      simp only [List.length_cons] at hm
      obtain ⟨m, rfl⟩ := Nat.exists_eq_add_one_of_ne_zero (by omega : m ≠ 0)
      rw [List.cons_append, List.cons_append, readText, hd, Option.bind_some,
        hused m (by omega)]
      exact hu
    · next c tail hquote hu hescape =>
      split at h
      · cases h
      · next hc =>
        obtain ⟨used, rfl, hused⟩ := ih h
        refine ⟨c :: used, rfl, fun m hm rest' => ?_⟩
        simp only [List.length_cons] at hm
        obtain ⟨m, rfl⟩ := Nat.exists_eq_add_one_of_ne_zero (by omega : m ≠ 0)
        have hback : c ≠ '\\' := by simp_all
        rw [List.cons_append, readText, if_neg hc, hused m (by omega)]
        · exact hquote
        · rintro _ rfl
          exact absurd rfl hback
        · rintro _ _ rfl
          exact absurd rfl hback

theorem orMalformed_eq_ok_iff {x : Option α} {a : α} : orMalformed x = .ok a ↔ x = some a := by
  cases x <;> simp [orMalformed]

theorem afterWord?_eq_some_iff {word : String} :
    afterWord? word cs = some rest ↔ cs = word.toList ++ rest := by
  rw [afterWord?, ← String.length_toList]
  constructor
  · intro h
    split at h
    · next hword =>
      obtain ⟨tail, rfl⟩ := List.isPrefixOf_iff_prefix.mp hword
      cases h
      rw [List.drop_left]
    · cases h
  · rintro rfl
    rw [if_pos (by simp), List.drop_left]

theorem readKey_append {s : String} (h : readKey fuel cs = .ok (s, rest)) :
    ∃ used, cs = '"' :: used ++ rest ∧
      ∀ m ≥ used.length, ∀ rest', readKey m ('"' :: used ++ rest') = .ok (s, rest') := by
  unfold readKey at h
  split at h
  · next tail =>
    obtain ⟨used, rfl, hused⟩ := readText_append (orMalformed_eq_ok_iff.mp h)
    refine ⟨used, rfl, fun m hm rest' => ?_⟩
    simp only [List.cons_append, readKey, hused m hm, orMalformed]
  · cases h

theorem readColon_append (h : readColon cs = .ok rest) :
    ∃ used ≠ [], cs = used ++ rest ∧ ∀ rest', readColon (used ++ rest') = .ok rest' := by
  unfold readColon at h
  split at h
  · next hcolon =>
    cases h
    obtain ⟨blanks, rfl, hblanks⟩ := skipBlanks_eq_cons hcolon
    refine ⟨blanks ++ [':'], by simp, by simp, fun rest' => ?_⟩
    simp [readColon, hblanks]
  · cases h

theorem readSeparator_append {close : Char} {more : Bool}
    (h : readSeparator close cs = .ok (more, rest)) :
    ∃ used ≠ [], cs = used ++ rest ∧ (more = false → used.getLast? = some close) ∧
      ∀ rest', readSeparator close (used ++ rest') = .ok (more, rest') := by
  unfold readSeparator at h
  split at h
  · next c tail hc =>
    obtain ⟨blanks, rfl, hblanks⟩ := skipBlanks_eq_cons hc
    refine ⟨blanks ++ [c], by simp, ?_⟩
    split at h
    · next hcomma =>
      cases h
      exact ⟨by simp, nofun, fun rest' => by simp [readSeparator, hblanks, hcomma]⟩
    · next hcomma =>
      split at h
      · next hclose =>
        cases h
        rw [beq_iff_eq] at hclose
        subst hclose
        exact ⟨by simp, by simp, fun rest' => by simp [readSeparator, hblanks, hcomma]⟩
      · cases h
  · cases h

/-! ### Values -/

/-- A value at the start of a text is read again, before any text with the same first character as
the rest. Two steps for each of its characters are enough. -/
def ReadAgain (depth : ℕ) (cs : List Char) (t : Tree) (rest : List Char) : Prop :=
  ∃ used, cs = used ++ rest ∧ ∀ m > 2 * used.length, ∀ rest', rest'.head? = rest.head? →
    readTree m depth (used ++ rest') = .ok (t, rest')

/-- What the readers of values, lists and mappings with this much fuel depend on. Lists and
mappings end with their brackets, so nothing is asked of what follows. -/
structure LocalAll (fuel : ℕ) : Prop where
  tree {depth : ℕ} {cs rest : List Char} {t : Tree} :
    readTree fuel depth cs = .ok (t, rest) → ReadAgain depth cs t rest
  items {depth i : ℕ} {cs rest : List Char} {ts : List Tree} :
    readItems fuel depth i cs = .ok (ts, rest) → ∃ used, cs = used ++ rest ∧
      ∀ m > 2 * used.length + 1, ∀ rest', readItems m depth i (used ++ rest') = .ok (ts, rest')
  members {depth : ℕ} {cs rest : List Char} {ms : List (Tree × Tree)} :
    readMembers fuel depth cs = .ok (ms, rest) → ∃ used ≠ [], cs = used ++ rest ∧
      ∀ m > 2 * used.length + 1, ∀ rest', readMembers m depth (used ++ rest') = .ok (ms, rest')

theorem head_of_append_congr {used rest rest' tail : List Char} {c : Char}
    (h : rest'.head? = rest.head?) (hc : used ++ rest' = c :: tail) :
    ∃ tail', used ++ rest = c :: tail' := by
  have hhead : (used ++ rest).head? = some c := by rw [← head?_append_congr h, hc, List.head?_cons]
  exact List.head?_eq_some_iff.mp hhead

variable {t : Tree} {tail : List Char}

/-- Blanks before a value do not matter. -/
theorem ReadAgain.ofBlanks (used : List Char) (hcs : skipBlanks cs = used ++ rest)
    (hne : used ++ rest ≠ [])
    (again : ∀ m ≥ 2 * used.length, ∀ cs' rest', rest'.head? = rest.head? →
      skipBlanks cs' = used ++ rest' → readTree (m + 1) depth cs' = .ok (t, rest')) :
    ReadAgain depth cs t rest := by
  obtain ⟨c, tail, htail⟩ := List.exists_cons_of_ne_nil hne
  obtain ⟨blanks, rfl, hblanks⟩ := skipBlanks_eq_cons (hcs.trans htail)
  refine ⟨blanks ++ used, by rw [List.append_assoc, htail], fun m hm rest' hrest => ?_⟩
  rw [List.length_append] at hm
  obtain ⟨m, rfl⟩ := Nat.exists_eq_add_one_of_ne_zero (by omega : m ≠ 0)
  refine again m (by omega) _ rest' hrest ?_
  obtain ⟨tail', htail'⟩ := head_of_append_congr hrest.symm htail
  rw [List.append_assoc, htail', hblanks]

theorem ReadAgain.ofText (hcs : skipBlanks cs = '"' :: tail)
    (hread : readTree (fuel + 1) depth cs = .ok (t, rest)) : ReadAgain depth cs t rest := by
  simp only [readTree, hcs] at hread
  obtain ⟨⟨s, r⟩, hs, ⟨⟩⟩ := bind_eq_ok_iff.mp hread
  obtain ⟨used, rfl, hused⟩ := readText_append (orMalformed_eq_ok_iff.mp hs)
  refine .ofBlanks ('"' :: used) hcs nofun fun m hm cs' rest' _ hcs' => ?_
  rw [List.length_cons] at hm
  simp only [readTree, hcs', List.cons_append, hused m (by omega), orMalformed]
  rfl

/-- The three words: a value is known by its first character. -/
theorem ReadAgain.ofWord (c : Char) (word : String) (meant : Tree)
    (hcs : skipBlanks cs = c :: tail) (hread : readTree (fuel + 1) depth cs = .ok (t, rest))
    (eq_word : ∀ m cs' tail', skipBlanks cs' = c :: tail' →
      readTree (m + 1) depth cs' = do return (meant, ← orMalformed (afterWord? word tail'))) :
    ReadAgain depth cs t rest := by
  rw [eq_word _ _ _ hcs] at hread
  obtain ⟨r, hr, ⟨⟩⟩ := bind_eq_ok_iff.mp hread
  rw [orMalformed_eq_ok_iff, afterWord?_eq_some_iff] at hr
  refine .ofBlanks (c :: word.toList) (hcs.trans (hr ▸ rfl)) nofun fun m _ cs' rest' _ hcs' => ?_
  rw [eq_word m cs' (word.toList ++ rest') hcs', afterWord?_eq_some_iff.mpr rfl]
  rfl

/-- No value starts with the bracket that ends a list. -/
theorem skipBlanks_ne_of_readItems {i : ℕ} {ts : List Tree}
    (h : readItems fuel depth i cs = .ok (ts, rest)) (tail : List Char) :
    skipBlanks cs ≠ ']' :: tail := by
  intro hclose
  cases fuel with
  | zero => cases h
  | succ fuel =>
    obtain ⟨⟨t, mid⟩, ht, -⟩ := bind_eq_ok_iff.mp h
    replace ht := mapError_eq_ok_iff.mp ht
    cases fuel with
    | zero => cases ht
    | succ fuel =>
      rw [readTree, hclose] at ht
      cases ht

theorem LocalAll.ofList (h : LocalAll fuel) (hcs : skipBlanks cs = '[' :: tail)
    (hread : readTree (fuel + 1) depth cs = .ok (t, rest)) : ReadAgain depth cs t rest := by
  simp only [readTree, hcs] at hread
  cases depth with
  | zero => cases hread
  | succ depth =>
    dsimp only at hread
    split at hread
    · next tail' hclose =>
      obtain ⟨blanks, rfl, hblanks⟩ := skipBlanks_eq_cons hclose
      cases hread
      refine .ofBlanks ('[' :: (blanks ++ [']'])) (by simpa using hcs) nofun
        fun m hm cs' rest' _ hcs' => ?_
      simp only [readTree, hcs', List.cons_append, List.append_assoc, hblanks, List.nil_append]
    · obtain ⟨⟨items, r⟩, hitems, ⟨⟩⟩ := bind_eq_ok_iff.mp hread
      obtain ⟨used, rfl, hused⟩ := h.items hitems
      refine .ofBlanks ('[' :: used) hcs nofun fun m hm cs' rest' _ hcs' => ?_
      rw [List.length_cons] at hm
      have hitems' := hused m (by omega) rest'
      simp only [readTree, hcs', List.cons_append]
      split
      · next hclose => exact absurd hclose (skipBlanks_ne_of_readItems hitems' _)
      · rw [hitems']
        rfl

theorem LocalAll.ofMapping (h : LocalAll fuel) (hcs : skipBlanks cs = '{' :: tail)
    (hread : readTree (fuel + 1) depth cs = .ok (t, rest)) : ReadAgain depth cs t rest := by
  simp only [readTree, hcs] at hread
  cases depth with
  | zero => cases hread
  | succ depth =>
    dsimp only at hread
    split at hread
    · next tail' hclose =>
      obtain ⟨blanks, rfl, hblanks⟩ := skipBlanks_eq_cons hclose
      cases hread
      refine .ofBlanks ('{' :: (blanks ++ ['}'])) (by simpa using hcs) nofun
        fun m hm cs' rest' _ hcs' => ?_
      simp only [readTree, hcs', List.cons_append, List.append_assoc, hblanks, List.nil_append]
    · next hopen =>
      obtain ⟨⟨members, r⟩, hmembers, ⟨⟩⟩ := bind_eq_ok_iff.mp hread
      obtain ⟨used, hne, htail, hused⟩ := h.members hmembers
      obtain ⟨c, used, rfl⟩ := List.exists_cons_of_ne_nil hne
      obtain ⟨blanks, rfl, hblanks⟩ := skipBlanks_eq_cons htail
      refine .ofBlanks ('{' :: (blanks ++ c :: used)) (by simpa using hcs) nofun
        fun m hm cs' rest' _ hcs' => ?_
      simp only [List.length_append, List.length_cons] at hm hused
      have hmembers' := hused m (by omega) rest'
      simp only [readTree, hcs', List.cons_append, List.append_assoc, hblanks] at hmembers' ⊢
      split
      · next hclose =>
        cases hclose
        exact absurd htail (hopen _)
      · rw [hmembers']
        rfl

theorem LocalAll.tree_succ (h : LocalAll fuel)
    (hread : readTree (fuel + 1) depth cs = .ok (t, rest)) : ReadAgain depth cs t rest := by
  have hcases := hread
  unfold readTree at hcases
  split at hcases
  · next hcs => exact .ofText hcs hread
  · next hcs => exact h.ofList hcs hread
  · next hcs => exact h.ofMapping hcs hread
  · next hcs =>
    exact .ofWord 'n' "ull" .null hcs hread fun m cs' tail' h => by simp only [readTree, h]
  · next hcs =>
    exact .ofWord 't' "rue" (.bool true) hcs hread fun m cs' tail' h => by simp only [readTree, h]
  · next hcs =>
    exact .ofWord 'f' "alse" (.bool false) hcs hread fun m cs' tail' h => by
      simp only [readTree, h]
  · next hn1 hn2 hn3 hn4 hn5 hn6 =>
    obtain ⟨⟨n, r⟩, hn, ⟨⟩⟩ := bind_eq_ok_iff.mp hcases
    rw [orMalformed_eq_ok_iff] at hn
    obtain ⟨used, hcs, hused⟩ := local_readNumber? hn
    refine .ofBlanks used hcs ?_ fun m hm cs' rest' hrest hcs' => ?_
    · intro hnil
      rw [hcs, hnil] at hn
      cases hn
    · -- The first character is the same as before, so it starts none of the other values.
      have hfirst (c : Char) (tail : List Char) (hc : used ++ rest' = c :: tail) :
          ∃ tail', skipBlanks cs = c :: tail' := hcs ▸ head_of_append_congr hrest hc
      simp only [readTree, hcs']
      split
      · next hc => exact ((hfirst _ _ hc).elim hn1).elim
      · next hc => exact ((hfirst _ _ hc).elim hn2).elim
      · next hc => exact ((hfirst _ _ hc).elim hn3).elim
      · next hc => exact ((hfirst _ _ hc).elim hn4).elim
      · next hc => exact ((hfirst _ _ hc).elim hn5).elim
      · next hc => exact ((hfirst _ _ hc).elim hn6).elim
      · rw [hused rest' hrest]
        rfl

theorem head?_append_of_ne_nil {mark : List Char} (h : mark ≠ []) (a b : List Char) :
    (mark ++ a).head? = (mark ++ b).head? := by
  rw [List.head?_append_of_ne_nil _ h, List.head?_append_of_ne_nil _ h]

theorem LocalAll.items_succ (h : LocalAll fuel) {i : ℕ} {ts : List Tree}
    (hread : readItems (fuel + 1) depth i cs = .ok (ts, rest)) : ∃ used, cs = used ++ rest ∧
      ∀ m > 2 * used.length + 1, ∀ rest',
        readItems m depth i (used ++ rest') = .ok (ts, rest') := by
  obtain ⟨⟨t, r⟩, ht, hread⟩ := bind_eq_ok_iff.mp hread
  obtain ⟨⟨more, r'⟩, hmore, hread⟩ := bind_eq_ok_iff.mp hread
  obtain ⟨used, rfl, hused⟩ := h.tree (mapError_eq_ok_iff.mp ht)
  obtain ⟨mark, hne, rfl, -, hmark⟩ := readSeparator_append (mapError_eq_ok_iff.mp hmore)
  have hlen : mark.length ≠ 0 := by simpa using hne
  cases more with
  | true =>
    obtain ⟨⟨ts, r⟩, hts, ⟨⟩⟩ := bind_eq_ok_iff.mp hread
    obtain ⟨later, rfl, hlater⟩ := h.items hts
    refine ⟨used ++ (mark ++ later), by simp, fun m hm rest' => ?_⟩
    simp only [List.length_append] at hm
    obtain ⟨m, rfl⟩ := Nat.exists_eq_add_one_of_ne_zero (by omega : m ≠ 0)
    simp only [readItems, inItem, List.append_assoc,
      hused m (by omega) _ (head?_append_of_ne_nil hne _ _), hmark, hlater m (by omega), bind,
      Except.bind, Except.mapError, if_true]
    rfl
  | false =>
    cases hread
    refine ⟨used ++ mark, by simp, fun m hm rest' => ?_⟩
    simp only [List.length_append] at hm
    obtain ⟨m, rfl⟩ := Nat.exists_eq_add_one_of_ne_zero (by omega : m ≠ 0)
    simp only [readItems, inItem, List.append_assoc,
      hused m (by omega) _ (head?_append_of_ne_nil hne _ _), hmark, bind, Except.bind,
      Except.mapError]
    rfl

/-- A key, the colon and the value. -/
theorem LocalAll.member (h : LocalAll fuel) {k : String} {t : Tree} {r r' : List Char}
    (hk : readKey fuel (skipBlanks cs) = .ok (k, r)) (hcolon : readColon r = .ok r')
    (ht : readTree fuel depth r' = .ok (t, rest)) : ∃ used ≠ [], cs = used ++ rest ∧
      ∀ m ≥ 2 * used.length, ∀ rest', rest'.head? = rest.head? → ∃ s s',
        readKey m (skipBlanks (used ++ rest')) = .ok (k, s) ∧ readColon s = .ok s' ∧
          readTree m depth s' = .ok (t, rest') := by
  obtain ⟨key, hcs, hkey⟩ := readKey_append hk
  obtain ⟨blanks, rfl, hblanks⟩ := skipBlanks_eq_cons hcs
  obtain ⟨colon, -, rfl, again⟩ := readColon_append hcolon
  obtain ⟨value, rfl, hvalue⟩ := h.tree ht
  refine ⟨blanks ++ '"' :: (key ++ (colon ++ value)), by simp, by simp, fun m hm rest' hrest => ?_⟩
  simp only [List.length_append, List.length_cons] at hm
  refine ⟨colon ++ (value ++ rest'), value ++ rest', ?_, again _, hvalue m (by omega) rest' hrest⟩
  simpa [hblanks] using hkey m (by omega) (colon ++ (value ++ rest'))

theorem LocalAll.members_succ (h : LocalAll fuel) {ms : List (Tree × Tree)}
    (hread : readMembers (fuel + 1) depth cs = .ok (ms, rest)) : ∃ used ≠ [], cs = used ++ rest ∧
      ∀ m > 2 * used.length + 1, ∀ rest',
        readMembers m depth (used ++ rest') = .ok (ms, rest') := by
  obtain ⟨⟨k, r₁⟩, hk, hread⟩ := bind_eq_ok_iff.mp hread
  obtain ⟨⟨t, r₃⟩, hvalue, hread⟩ := bind_eq_ok_iff.mp hread
  obtain ⟨r₂, hcolon, ht⟩ := bind_eq_ok_iff.mp (mapError_eq_ok_iff.mp hvalue)
  obtain ⟨⟨more, r₄⟩, hmore, hread⟩ := bind_eq_ok_iff.mp hread
  obtain ⟨used, hpos, rfl, hused⟩ := h.member (mapError_eq_ok_iff.mp hk) hcolon ht
  obtain ⟨mark, hne, rfl, -, hmark⟩ := readSeparator_append (mapError_eq_ok_iff.mp hmore)
  have hlen : mark.length ≠ 0 := by simpa using hne
  cases more with
  | true =>
    obtain ⟨⟨ms, r⟩, hms, ⟨⟩⟩ := bind_eq_ok_iff.mp hread
    obtain ⟨later, -, rfl, hlater⟩ := h.members hms
    refine ⟨used ++ (mark ++ later), by simp [hpos], by simp, fun m hm rest' => ?_⟩
    simp only [List.length_append] at hm
    obtain ⟨m, rfl⟩ := Nat.exists_eq_add_one_of_ne_zero (by omega : m ≠ 0)
    obtain ⟨s, s', hk, hcolon, ht⟩ :=
      hused m (by omega) (mark ++ (later ++ rest')) (head?_append_of_ne_nil hne _ _)
    simp only [readMembers, inValue, List.append_assoc, hk, hcolon, ht, hmark, hlater m (by omega),
      bind, Except.bind, Except.mapError, if_true]
    rfl
  | false =>
    cases hread
    refine ⟨used ++ mark, by simp [hpos], by simp, fun m hm rest' => ?_⟩
    simp only [List.length_append] at hm
    obtain ⟨m, rfl⟩ := Nat.exists_eq_add_one_of_ne_zero (by omega : m ≠ 0)
    obtain ⟨s, s', hk, hcolon, ht⟩ :=
      hused m (by omega) (mark ++ rest') (head?_append_of_ne_nil hne _ _)
    simp only [readMembers, inValue, List.append_assoc, hk, hcolon, ht, hmark, bind, Except.bind,
      Except.mapError]
    rfl

theorem localAll (fuel : ℕ) : LocalAll fuel := by
  induction fuel with
  | zero => exact ⟨nofun, nofun, nofun⟩
  | succ fuel ih => exact ⟨ih.tree_succ, ih.items_succ, ih.members_succ⟩

/-! ### The document -/

/-- The entries of a complete mapping end with its bracket. -/
theorem readEntries_append {inner : ℕ} {es : List (String × Tree)}
    (h : readEntries inner fuel cs = (es, .complete)) :
    ∃ used rest, cs = used ++ rest ∧ used.getLast? = some '}' ∧
      ∀ m n, m ≥ 2 * used.length → n ≥ used.length → ∀ rest',
        readEntries m n (used ++ rest') = (es, .complete) := by
  induction fuel generalizing cs es with
  | zero => cases h
  | succ fuel ih =>
    unfold readEntries at h
    split at h
    · cases h
    · next k r₁ hk =>
      split at h
      · cases h
      · next t r₃ hr₃ =>
        obtain ⟨r₂, hcolon, ht⟩ := bind_eq_ok_iff.mp hr₃
        obtain ⟨used, -, rfl, hused⟩ := (localAll inner).member hk hcolon ht
        split at h
        · cases h
        · next rest hmore =>
          cases h
          obtain ⟨mark, hne, rfl, hlast, hmark⟩ := readSeparator_append hmore
          refine ⟨used ++ mark, rest, by simp, by simp [hlast], fun m n hm hn rest' => ?_⟩
          have hlen : mark.length ≠ 0 := by simpa using hne
          simp only [List.length_append] at hm hn
          obtain ⟨n, rfl⟩ := Nat.exists_eq_add_one_of_ne_zero (by omega : n ≠ 0)
          obtain ⟨s, s', hk, hcolon, ht⟩ :=
            hused m (by omega) (mark ++ rest') (head?_append_of_ne_nil hne _ _)
          simp only [readEntries, List.append_assoc, hk, hcolon, Except.bind, ht, hmark]
        · next r₄ hmore =>
          obtain ⟨mark, hne, rfl, -, hmark⟩ := readSeparator_append hmore
          obtain ⟨entries, hentries, rfl⟩ : ∃ entries,
              readEntries inner fuel r₄ = (entries, .complete) ∧ es = (k, t) :: entries := by
            cases hrec : readEntries inner fuel r₄ with
            | mk entries ending =>
              rw [hrec] at h
              cases h
              exact ⟨entries, rfl, rfl⟩
          obtain ⟨later, rest, rfl, hlast, hlater⟩ := ih hentries
          refine ⟨used ++ (mark ++ later), rest, by simp, by simp [hlast],
            fun m n hm hn rest' => ?_⟩
          have hlen : mark.length ≠ 0 := by simpa using hne
          simp only [List.length_append] at hm hn
          obtain ⟨n, rfl⟩ := Nat.exists_eq_add_one_of_ne_zero (by omega : n ≠ 0)
          obtain ⟨s, s', hk, hcolon, ht⟩ :=
            hused m (by omega) (mark ++ (later ++ rest')) (head?_append_of_ne_nil hne _ _)
          simp only [readEntries, List.append_assoc, hk, hcolon, Except.bind, ht, hmark,
            hlater m n (by omega) (by omega)]

theorem otherIf_ne_mapping (found : Option String) (es : List (String × Tree)) (ending : Ending) :
    otherIf found ≠ .mapping es ending := by
  cases found <;> exact nofun

/-- What follows the first value is not looked at. -/
theorem read_append {text : List Char} {es : List (String × Tree)}
    (h : read text = .mapping es .complete) :
    ∃ used rest, text = used ++ rest ∧ (∃ body, skipBlanks used = '{' :: (body ++ ['}'])) ∧
      ∀ rest', read (used ++ rest') = .mapping es .complete := by
  unfold read at h
  dsimp only at h
  split at h
  · next tail htext =>
    obtain ⟨blanks, rfl, hblanks⟩ := skipBlanks_eq_cons htext
    split at h
    · next rest hclose =>
      obtain ⟨more, rfl, hmore⟩ := skipBlanks_eq_cons hclose
      refine ⟨blanks ++ '{' :: (more ++ ['}']), rest, by simp, ⟨more, hblanks _⟩, fun rest' => ?_⟩
      simp [read, hblanks, hmore, h]
    · next hopen =>
      simp only [Reading.mapping.injEq] at h
      obtain ⟨used, rest, htail, hlast, hused⟩ := readEntries_append (Prod.ext h.1 h.2)
      obtain ⟨body, rfl⟩ := List.getLast?_eq_some_iff.mp hlast
      obtain ⟨c, used, hc⟩ := List.exists_cons_of_ne_nil (List.concat_ne_nil '}' body)
      rw [hc] at htail hused
      obtain ⟨more, rfl, hmore⟩ := skipBlanks_eq_cons htail
      refine ⟨blanks ++ '{' :: (more ++ (body ++ ['}'])), rest, by simp [hc], ⟨more ++ body, ?_⟩,
        fun rest' => ?_⟩
      · rw [hblanks, List.append_assoc]
      · have hentries (fuel : ℕ) (hfuel : fuel ≥ 2 * (c :: used).length) :=
          hused fuel fuel hfuel (by omega) rest'
        have hlen : 2 * (blanks ++ '{' :: (more ++ c :: (used ++ rest'))).length + 2 ≥
            2 * (c :: used).length := by
          simp only [List.length_append, List.length_cons]
          omega
        rw [hc, read]
        simp only [List.append_assoc, List.cons_append, hblanks, hmore] at hentries hlen ⊢
        split
        · next hclose =>
          cases hclose
          exact absurd htail (hopen _)
        · rw [hentries _ hlen]
  · cases h
  all_goals exact absurd h (otherIf_ne_mapping _ _ _)

/-- The first value of a text is its shortest part that is complete. -/
theorem exists_first_value {text : List Char} {es : List (String × Tree)}
    (h : read text = .mapping es .complete) :
    ∃ value rest, text = value ++ rest ∧ (∃ body, skipBlanks value = '{' :: (body ++ ['}'])) ∧
      (∀ rest', read (value ++ rest') = .mapping es .complete) ∧
      ∀ part, part <+: value → part ≠ value → ∀ es', read part ≠ .mapping es' .complete := by
  induction hn : text.length using Nat.strong_induction_on generalizing text es with
  | _ n ih =>
    obtain ⟨used, rest, rfl, hbrackets, hused⟩ := read_append h
    by_cases hpart : ∃ part es', part <+: used ∧ part ≠ used ∧ read part = .mapping es' .complete
    · obtain ⟨part, es', ⟨more, rfl⟩, hne, hread⟩ := hpart
      have hlen : part.length < n := by
        have hmore : more.length ≠ 0 := by simpa using hne
        simp only [← hn, List.length_append]
        omega
      obtain ⟨value, later, rfl, hvalue, hagain, hfirst⟩ := ih _ hlen hread rfl
      obtain rfl : es' = es := by
        have hsame := hagain (later ++ (more ++ rest))
        simp only [List.append_assoc] at h
        rw [h] at hsame
        cases hsame
        rfl
      exact ⟨value, later ++ (more ++ rest), by simp, hvalue, hagain, hfirst⟩
    · refine ⟨used, rest, rfl, hbrackets, hused, fun part hshort hne es' hread => ?_⟩
      exact hpart ⟨part, es', hshort, hne, hread⟩

end TreeSchema.Document.Json
