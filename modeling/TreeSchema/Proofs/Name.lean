import Mathlib.Tactic.Tauto
import TreeSchema.Name

/-!
# Names and their characters

Words are made of ASCII letters, digits and underscores. A path is words with double colons between
them; cutting it at the colons gives the words back.
-/

namespace TreeSchema.Name

theorem isWordPart_of_isWord {cs : List Char} (h : isWord cs = true) :
    cs.all isWordPart = true := by
  cases cs with
  | nil => rfl
  | cons c cs =>
    simp only [isWord, Bool.and_eq_true] at h
    have hc : isWordPart c = true := by
      have hs := h.1
      simp only [isWordStart, isWordPart, Char.isAlphanum, Bool.or_eq_true] at hs ⊢
      tauto
    rw [List.all_cons, hc, h.2]
    rfl

theorem isWordPart_of_isIdent {s : String} (h : isIdent s = true) :
    s.toList.all isWordPart = true := by
  simp only [isIdent, Bool.and_eq_true] at h
  exact isWordPart_of_isWord h.1.2

theorem toNat_of_isWordPart {c : Char} (h : isWordPart c = true) :
    48 ≤ c.toNat ∧ c.toNat ≤ 122 := by
  have hc : (((decide ('A'.val ≤ c.val ∧ c.val ≤ 'Z'.val) ||
      (decide ('a'.val ≤ c.val) && decide (c.val ≤ 'z'.val))) ||
      (decide ('0'.val ≤ c.val) && decide (c.val ≤ '9'.val))) || c == '_') = true := h
  simp only [Bool.or_eq_true, Bool.and_eq_true, decide_eq_true_eq, beq_iff_eq,
    UInt32.le_iff_toNat_le] at hc
  rcases hc with ((⟨h₁, h₂⟩ | ⟨h₁, h₂⟩) | ⟨h₁, h₂⟩) | rfl
  · exact ⟨Nat.le_trans (by decide) h₁, Nat.le_trans h₂ (by decide)⟩
  · exact ⟨Nat.le_trans (by decide) h₁, Nat.le_trans h₂ (by decide)⟩
  · exact ⟨h₁, Nat.le_trans h₂ (by decide)⟩
  · decide

/-- The characters of words lie in a range of ASCII that is small enough to try. -/
theorem of_forall_wordPart {P : Char → Prop}
    (hall : ∀ n < 123, 48 ≤ n → isWordPart (Char.ofNat n) = true → P (Char.ofNat n)) {c : Char}
    (h : isWordPart c = true) : P c := by
  have hrange := toNat_of_isWordPart h
  have hc := hall c.toNat (by omega) hrange.1
  rw [Char.ofNat_toNat] at hc
  exact hc h

theorem not_isBlank_of_isWordPart {c : Char} (h : isWordPart c = true) :
    Text.isBlank c = false := by
  have hrange := toNat_of_isWordPart h
  simp only [Text.isBlank, Bool.or_eq_false_iff, Bool.and_eq_false_iff, decide_eq_false_iff_not,
    beq_eq_false_iff_ne]
  omega

/-! ### Small letters -/

theorem isWordPart_small {c : Char} (h : isWordPart c = true) :
    (Text.LetterCase.small c).all isWordPart = true :=
  of_forall_wordPart (P := fun c => (Text.LetterCase.small c).all isWordPart = true)
    (by decide +kernel) h

theorem isWordPart_snakeChars {cs : List Char} (h : ∀ c ∈ cs, isWordPart c = true) :
    (snakeChars cs).all isWordPart = true := by
  fun_induction snakeChars cs with
  | case1 => rfl
  | case2 c => exact isWordPart_small (h c (by simp))
  | case3 c d cs ih =>
    have hc := isWordPart_small (h c (by simp))
    have hrest := ih fun x hx => h x (List.mem_cons_of_mem _ hx)
    rw [List.all_append, List.all_append, hc, hrest]
    split <;> rfl

theorem isWordPart_snakeCase {s : String} (h : isIdent s = true) :
    (snakeCase s).toList.all isWordPart = true := by
  have hword := List.all_eq_true.mp (isWordPart_of_isIdent h)
  rw [snakeCase, String.toList_ofList]
  exact isWordPart_snakeChars fun c hc => hword c (List.mem_filter.mp hc).1

/-! ### Paths -/

/-- A character of a path stands in one of its words or between two of them. -/
theorem mem_segments {cs : List Char} {c : Char} (h : c ∈ cs) :
    c = ':' ∨ ∃ seg ∈ segments cs, c ∈ seg := by
  fun_induction segments cs with
  | case1 => cases h
  | case2 cs ih =>
    simp only [List.mem_cons] at h
    rcases h with rfl | rfl | h
    · exact .inl rfl
    · exact .inl rfl
    · refine (ih h).imp id ?_
      rintro ⟨seg, hseg, hc⟩
      exact ⟨seg, List.mem_cons_of_mem _ hseg, hc⟩
  | case3 d cs _ hnil ih =>
    rcases List.mem_cons.mp h with rfl | h
    · exact .inr ⟨[c], by simp, by simp⟩
    · exact .inl (by simpa [hnil] using ih h)
  | case4 d cs _ first rest hcons ih =>
    rcases List.mem_cons.mp h with rfl | h
    · exact .inr ⟨c :: first, by simp, by simp⟩
    · rw [hcons] at ih
      refine (ih h).imp id ?_
      rintro ⟨seg, hseg, hc⟩
      rcases List.mem_cons.mp hseg with rfl | hseg
      · exact ⟨d :: seg, by simp, by simp [hc]⟩
      · exact ⟨seg, by simp [hseg], hc⟩

/-- Words with double colons between them. -/
def Path (cs : List Char) : Prop :=
  ∃ words : List (List Char), words ≠ [] ∧ (∀ w ∈ words, isWord w = true) ∧
    cs = [':', ':'].intercalate words

theorem segments_ne_nil (cs : List Char) : segments cs ≠ [] := by
  fun_cases segments cs <;> simp

theorem intercalate_segments (cs : List Char) : [':', ':'].intercalate (segments cs) = cs := by
  fun_induction segments cs with
  | case1 => rfl
  | case2 cs ih =>
    obtain ⟨first, rest, hcons⟩ := List.exists_cons_of_ne_nil (segments_ne_nil cs)
    rw [hcons] at ih ⊢
    simp [List.intercalate_cons_cons, ih]
  | case3 c cs _ hnil ih => exact absurd hnil (segments_ne_nil cs)
  | case4 c cs _ first rest hcons ih =>
    rw [hcons] at ih
    cases rest with
    | nil => simpa using ih
    | cons second rest => simpa [List.intercalate_cons_cons] using ih

theorem colon_notMem_of_isWord {w : List Char} (h : isWord w = true) : ':' ∉ w := by
  intro hc
  exact absurd (List.all_eq_true.mp (isWordPart_of_isWord h) _ hc) (by decide)

theorem segments_cons_of_ne {c : Char} (h : c ≠ ':') (cs first : List Char)
    (rest : List (List Char)) (hcs : segments cs = first :: rest) :
    segments (c :: cs) = (c :: first) :: rest := by
  rw [segments, hcs]
  rintro _ rfl
  exact absurd rfl h

theorem segments_append {w rest : List Char} (hw : ':' ∉ w) :
    segments (w ++ ':' :: ':' :: rest) = w :: segments rest := by
  induction w with
  | nil => rfl
  | cons c w ih =>
    rw [List.mem_cons, not_or] at hw
    exact segments_cons_of_ne (Ne.symm hw.1) _ _ _ (ih hw.2)

theorem segments_of_notMem {w : List Char} (hw : ':' ∉ w) : segments w = [w] := by
  induction w with
  | nil => rfl
  | cons c w ih =>
    rw [List.mem_cons, not_or] at hw
    exact segments_cons_of_ne (Ne.symm hw.1) _ _ _ (ih hw.2)

theorem segments_intercalate {words : List (List Char)} (hne : words ≠ [])
    (h : ∀ w ∈ words, ':' ∉ w) : segments ([':', ':'].intercalate words) = words := by
  induction words with
  | nil => exact absurd rfl hne
  | cons w words ih =>
    have hw := h w List.mem_cons_self
    cases words with
    | nil => simpa using segments_of_notMem hw
    | cons second rest =>
      have hrest := ih (List.cons_ne_nil _ _) fun x hx => h x (List.mem_cons_of_mem _ hx)
      rw [List.intercalate_cons_cons, List.append_assoc, List.cons_append, List.cons_append,
        List.nil_append, segments_append hw, hrest]

/-- The pieces between double colons are words just when the text is made of words that way. -/
theorem all_isWord_segments_iff {cs : List Char} : (segments cs).all isWord = true ↔ Path cs := by
  constructor
  · intro h
    exact ⟨_, segments_ne_nil _, List.all_eq_true.mp h, (intercalate_segments _).symm⟩
  · rintro ⟨words, hne, hwords, rfl⟩
    rw [segments_intercalate hne fun w hw => colon_notMem_of_isWord (hwords w hw)]
    exact List.all_eq_true.mpr hwords

theorem isPath_iff {s : String} : isPath s = true ↔ Path s.toList := all_isWord_segments_iff

/-- The characters of a path are parts of words and colons. -/
theorem Path.isWordPart_or_colon {cs : List Char} (h : Path cs) {c : Char} (hc : c ∈ cs) :
    isWordPart c = true ∨ c = ':' := by
  rcases mem_segments hc with hcolon | ⟨seg, hseg, hmem⟩
  · exact .inr hcolon
  · have hword := List.all_eq_true.mp (all_isWord_segments_iff.mpr h) seg hseg
    exact .inl (List.all_eq_true.mp (isWordPart_of_isWord hword) c hmem)

theorem Path.notMem {cs : List Char} (h : Path cs) {c : Char} (hword : isWordPart c = false)
    (hcolon : c ≠ ':') : c ∉ cs := by
  intro hc
  rcases h.isWordPart_or_colon hc with hpart | rfl
  · rw [hword] at hpart
    cases hpart
  · exact hcolon rfl

theorem Path.not_isBlank {cs : List Char} (h : Path cs) {c : Char} (hc : c ∈ cs) :
    Text.isBlank c = false := by
  rcases h.isWordPart_or_colon hc with hword | rfl
  · exact not_isBlank_of_isWordPart hword
  · decide

theorem Path.ne_nil {cs : List Char} (h : Path cs) : cs ≠ [] := by
  rintro rfl
  have hword := all_isWord_segments_iff.mpr h
  simp [segments, isWord] at hword

end TreeSchema.Name
