import TreeSchema.Proofs.Document.Yaml.Space

/-!
# How tokens are written

The characters that each reader of a token takes. Marks, aliases and anchors are spelled out, a tag
is one word, and a scalar has the same characters as its text, up to white space and escapes.
Nothing is passed over but white space and the comment that may end a directive or the first line
of a block scalar.
-/

namespace TreeSchema.Document.Yaml

variable {cur next mid : Cursor} {fuel : ℕ}

namespace Token

open Cursor (Passes Inks)

/-! ### Tags, labels and directives -/

theorem isInk_of_isUriPart {verbatim : Bool} {c : Char} (h : isUriPart verbatim c) : isInk c := by
  by_contra hc
  simp only [isInk, endsWord, isGap, isBreak, Bool.not_eq_true, Bool.not_eq_false', Bool.or_eq_true,
    beq_iff_eq] at hc
  have hcode {d : Char} (hd : c.toNat = d.toNat) (hnot : ∀ v, isUriPart v d = false) : False := by
    rw [Char.toNat_inj.mp hd, hnot] at h
    cases h
  have hblank {d : Char} (hd : c = d) := hcode (congrArg Char.toNat hd)
  rcases hc with (h | h) | (((h | h) | h) | h) | h
  · exact hblank h (by decide)
  · exact hblank h (by decide)
  · exact hblank h (by decide)
  · exact hblank h (by decide)
  · exact hcode (d := '\u0085') h (by decide)
  · exact hcode (d := '\u2028') h (by decide)
  · exact hcode (d := '\u2029') h (by decide)

theorem isInk_of_isLabelPart {c : Char} (h : isLabelPart c) : isInk c := by
  have huri : isUriPart false c := by simp [isUriPart, h]
  exact isInk_of_isUriPart huri

theorem passes_readUri {verbatim mayBeEmpty : Bool} {start : List Char} {suffix : Tag}
    (h : readUri verbatim start mayBeEmpty cur = some (suffix, next)) :
    Passes (isUriPart verbatim) cur next := by
  simp only [readUri] at h
  split at h
  · cases h
  · obtain ⟨bytes, -, ⟨⟩⟩ := Option.bind_eq_some_iff.mp h
    exact .takeWhile cur _

theorem readHandle_eq {inDirective : Bool} {handle : String}
    (h : readHandle inDirective cur = some (handle, next)) :
    cur.rest = handle.toList ++ next.rest ∧ Passes isInk (cur.skip 1) next := by
  simp only [readHandle] at h
  split at h
  · cases h
  · next hpeek =>
    have hcur := Cursor.rest_of_peek (by simpa using hpeek)
    have hlabel := (cur.skip 1).rest_takeWhile isLabelPart
    have hpass := (Passes.takeWhile (cur.skip 1) isLabelPart).mono fun _ => isInk_of_isLabelPart
    generalize (cur.skip 1).takeWhile isLabelPart = taken at h hlabel hpass
    split at h
    · next hmark =>
      have hmark := beq_iff_eq.mp hmark
      cases h
      refine ⟨?_, hpass.trans (.skip hmark (by decide))⟩
      rw [hcur, ← hlabel, Cursor.rest_of_peek hmark]
      simp
    · split at h
      · cases h
      · cases h
        refine ⟨?_, hpass⟩
        rw [hcur, ← hlabel]
        simp

/-- A tag is one word. -/
theorem passes_readTag {inFlow : Bool} {t : Token} (h : readTag inFlow cur = some (t, next)) :
    (∃ handle suffix, t = .tag handle suffix) ∧ Passes isInk (cur.skip 1) next := by
  -- Every way to a tag ends with the same look at the next character.
  have hend {handle : String} {suffix : Tag} {last : Cursor} {ended : Bool}
      (hlast : Passes isInk (cur.skip 1) last)
      (h : (if ended then some (Token.tag handle suffix, last) else none) = some (t, next)) :
      (∃ handle suffix, t = .tag handle suffix) ∧ Passes isInk (cur.skip 1) next := by
    split at h
    · cases h
      exact ⟨⟨handle, suffix, rfl⟩, hlast⟩
    · cases h
  have huri {verbatim mayBeEmpty : Bool} {start : List Char} {suffix : Tag} {cur last : Cursor}
      (h : readUri verbatim start mayBeEmpty cur = some (suffix, last)) : Passes isInk cur last :=
    (passes_readUri h).mono fun _ => isInk_of_isUriPart
  simp only [readTag] at h
  split at h
  · next hopen =>
    obtain ⟨⟨suffix, mid⟩, hsuffix, h⟩ := Option.bind_eq_some_iff.mp h
    dsimp only at h
    split at h
    · next hclose =>
      have hopen : (cur.skip 1).peek = some '<' := by
        simpa [Cursor.peek, Cursor.ahead, List.head?_eq_getElem?] using hopen
      have hskip : Passes isInk (cur.skip 1) (cur.skip 2) := by
        refine ⟨['<'], ?_, fun c hc => by rw [List.mem_singleton.mp hc]; decide⟩
        simpa [List.drop_drop] using Cursor.rest_of_peek hopen
      exact hend (hskip.trans ((huri hsuffix).trans (.skip (beq_iff_eq.mp hclose) (by decide)))) h
    · cases h
  · obtain ⟨⟨handle, mid⟩, hhandle, h⟩ := Option.bind_eq_some_iff.mp h
    obtain ⟨-, hmid⟩ := readHandle_eq hhandle
    dsimp only at h
    split at h
    · obtain ⟨⟨suffix, last⟩, hsuffix, h⟩ := Option.bind_eq_some_iff.mp h
      exact hend (hmid.trans (huri hsuffix)) h
    · obtain ⟨⟨suffix, last⟩, hsuffix, h⟩ := Option.bind_eq_some_iff.mp h
      dsimp only at h
      split at h
      · exact hend (hmid.trans (huri hsuffix)) h
      · exact hend (hmid.trans (huri hsuffix)) h

theorem readLabel_eq {label : String} (h : readLabel cur = some (label, next)) :
    (cur.skip 1).rest = label.toList ++ next.rest := by
  simp only [readLabel] at h
  split at h
  · cases h
  · cases h
    rw [String.toList_ofList, Cursor.rest_takeWhile]

/-- How a directive is written after its mark, on its line. -/
inductive Directs : Token → List Char → Prop where
  | version {major minor : ℕ} {blanks first second : List Char} (hblanks : ∀ c ∈ blanks, isGap c)
      (hfirst : ∀ c ∈ first, c.isDigit) (hsecond : ∀ c ∈ second, c.isDigit) :
      Directs (.version major minor) ("YAML".toList ++ (blanks ++ (first ++ '.' :: second)))
  | tagDirective {handle : String} {meaning : Tag} {blanks more uri : List Char}
      (hblanks : ∀ c ∈ blanks, isGap c) (hmore : ∀ c ∈ more, isGap c)
      (huri : ∀ c ∈ uri, isUriPart true c) :
      Directs (.tagDirective handle meaning)
        ("TAG".toList ++ (blanks ++ (handle.toList ++ (more ++ uri))))

theorem passes_readNumber {n : ℕ} (h : readNumber cur = some (n, next)) :
    Passes Char.isDigit cur next := by
  simp only [readNumber] at h
  split at h
  · cases h
  · cases h
    exact .takeWhile cur _

theorem directs_of_readDirectiveBody {name : String} {t : Token}
    (h : readDirectiveBody name cur = some (t, next)) :
    ∃ inside, cur.rest = inside ++ next.rest ∧ Directs t (name.toList ++ inside) := by
  simp only [readDirectiveBody] at h
  obtain ⟨blanks, hcur, hblanks⟩ := Passes.skipWhile cur isGap
  split at h
  · next hname =>
    obtain ⟨⟨major, cur₁⟩, hmajor, h⟩ := Option.bind_eq_some_iff.mp h
    dsimp only at h
    split at h
    · cases h
    · next hpoint =>
      obtain ⟨⟨minor, cur₂⟩, hminor, ⟨⟩⟩ := Option.bind_eq_some_iff.mp h
      obtain ⟨first, hfirst, hdigits⟩ := passes_readNumber hmajor
      obtain ⟨second, hsecond, hmore⟩ := passes_readNumber hminor
      have hpoint := Cursor.rest_of_peek (by simpa using hpoint)
      refine ⟨blanks ++ (first ++ '.' :: second), ?_, ?_⟩
      · rw [hcur, hfirst, hpoint, hsecond]
        simp
      · rw [beq_iff_eq.mp hname]
        exact .version hblanks hdigits hmore
  · split at h
    · next hname =>
      obtain ⟨⟨handle, cur₁⟩, hhandle, h⟩ := Option.bind_eq_some_iff.mp h
      dsimp only at h
      split at h
      · cases h
      · obtain ⟨⟨meaning, cur₂⟩, hmeaning, h⟩ := Option.bind_eq_some_iff.mp h
        dsimp only at h
        split at h
        · cases h
          obtain ⟨hfirst, -⟩ := readHandle_eq hhandle
          obtain ⟨more, hmore, hgap⟩ := Passes.skipWhile cur₁ isGap
          obtain ⟨uri, hsecond, huri⟩ := passes_readUri hmeaning
          refine ⟨blanks ++ (handle.toList ++ (more ++ uri)), ?_, ?_⟩
          · rw [hcur, hfirst, hmore, hsecond]
            simp
          · rw [beq_iff_eq.mp hname]
            exact .tagDirective hblanks hgap huri
        · cases h
    · cases h

theorem directs_of_readDirective {t : Token} (h : readDirective cur = some (t, next)) :
    ∃ inside a, (cur.skip 1).rest = inside ++ a ∧ Directs t inside ∧ LineEnd a next.rest := by
  simp only [readDirective] at h
  split at h
  · cases h
  · obtain ⟨⟨t', mid⟩, hbody, h⟩ := Option.bind_eq_some_iff.mp h
    obtain ⟨last, hend, ⟨⟩⟩ := Option.bind_eq_some_iff.mp h
    obtain ⟨inside, hinside, ht⟩ := directs_of_readDirectiveBody hbody
    rw [String.toList_ofList] at ht
    refine ⟨_, mid.rest, ?_, ht, lineEnd_of_readLineEnd hend⟩
    rw [List.append_assoc, ← hinside, Cursor.rest_takeWhile]

/-! ### Block scalars -/

/-- The marks after the one that starts a block scalar. -/
def isHeaderMark (c : Char) : Bool := c == '+' || c == '-' || c.isDigit

theorem header_readIndicator {n : Option ℕ} (h : readIndicator cur = some (n, next)) :
    ∃ marks, cur.rest = marks ++ next.rest ∧ marks.length ≤ 1 ∧ ∀ c ∈ marks, isHeaderMark c := by
  unfold readIndicator at h
  split at h
  · next c hpeek =>
    split at h
    · cases h
      exact ⟨[], rfl, by simp, nofun⟩
    · next hdigit =>
      split at h
      · cases h
      · cases h
        exact ⟨[c], Cursor.rest_of_peek hpeek, le_rfl, by simpa [isHeaderMark] using Or.inr hdigit⟩
  · cases h
    exact ⟨[], rfl, by simp, nofun⟩

theorem peek_of_chomp? {chomp : Chomp} (h : chomp? cur.peek = some chomp) :
    ∃ c, cur.peek = some c ∧ isHeaderMark c := by
  unfold chomp? at h
  split at h
  · exact ⟨'+', ‹_›, rfl⟩
  · exact ⟨'-', ‹_›, rfl⟩
  · cases h

theorem header_readBlockHeader {chomp : Chomp} {n : Option ℕ}
    (h : readBlockHeader cur = some (chomp, n, next)) :
    ∃ marks, cur.rest = marks ++ next.rest ∧ marks.length ≤ 2 ∧ ∀ c ∈ marks, isHeaderMark c := by
  unfold readBlockHeader at h
  split at h
  · next hchomp =>
    obtain ⟨⟨m, mid⟩, hmid, ⟨⟩⟩ := Option.map_eq_some_iff.mp h
    obtain ⟨c, hpeek, hc⟩ := peek_of_chomp? hchomp
    obtain ⟨marks, hmarks, hlength, hmark⟩ := header_readIndicator hmid
    refine ⟨c :: marks, by rw [Cursor.rest_of_peek hpeek, hmarks, List.cons_append], by simpa, ?_⟩
    simpa using ⟨hc, hmark⟩
  · split at h
    · cases h
    · next hmid =>
      cases h
      obtain ⟨marks, hmarks, hlength, hmark⟩ := header_readIndicator hmid
      exact ⟨marks, hmarks, by omega, hmark⟩
    · next mid hmid =>
      obtain ⟨marks, hmarks, hlength, hmark⟩ := header_readIndicator hmid
      split at h
      · next hchomp =>
        cases h
        obtain ⟨c, hpeek, hc⟩ := peek_of_chomp? hchomp
        refine ⟨marks ++ [c], ?_, by simpa, ?_⟩
        · rw [hmarks, Cursor.rest_of_peek hpeek, List.append_assoc, List.singleton_append]
        · simpa [or_imp, forall_and] using ⟨hmark, hc⟩
      · cases h
        exact ⟨marks, hmarks, by omega, hmark⟩

theorem inks_skipBlanks (cur : Cursor) (room : ℕ) :
    Inks [] cur (cur.skip ((cur.rest.take room).takeWhile (· == ' ')).length) := by
  refine ⟨(cur.rest.take room).takeWhile (· == ' '), ?_, ?_⟩
  · have hshort := (List.takeWhile_prefix (· == ' ')).trans (List.take_prefix room cur.rest)
    exact (List.prefix_iff_eq_append.mp hshort).symm
  · refine ink_eq_nil_iff.mpr fun c hc => ?_
    have hblank := List.mem_takeWhile_imp (p := (· == ' ')) hc
    rw [beq_iff_eq.mp hblank]
    decide

theorem inks_readBlockBreaks {indent : Option ℕ} {widest widest' : ℕ} {breaks breaks' : List Char}
    (h : readBlockBreaks indent fuel widest breaks cur = some (breaks', widest', next))
    (hbreaks : ink breaks = []) : ink breaks' = [] ∧ Inks [] cur next := by
  induction fuel generalizing widest breaks cur with
  | zero => cases h
  | succ fuel ih =>
    -- Whether the indentation is known plays no part here.
    cases indent
    all_goals
      simp only [readBlockBreaks] at h
      split at h
      · cases h
        exact ⟨hbreaks, inks_skipBlanks _ _⟩
      · split at h
        · cases h
        · split at h
          · obtain ⟨hbreaks', hnext⟩ := ih h (by rw [ink_append, hbreaks, ink_breakLine]; rfl)
            exact ⟨hbreaks', (inks_skipBlanks _ _).trans ((Inks.breakLine _).trans hnext)⟩
          · cases h
            exact ⟨hbreaks, inks_skipBlanks _ _⟩

/-- The breaks that end a line are kept apart from the text, and hold no text. -/
theorem inks_readBlockLines {literal afterBlank : Bool} {indent : ℕ}
    {text pending breaks text' pending' breaks' : List Char}
    (h : readBlockLines literal indent fuel text pending breaks afterBlank cur =
      some (text', pending', breaks', next))
    (hpending : ink pending = []) (hbreaks : ink breaks = []) :
    ink pending' = [] ∧ ink breaks' = [] ∧ ∃ out, ink text' = ink text ++ out ∧
      Inks out cur next := by
  induction fuel generalizing text pending breaks afterBlank cur with
  | zero => cases h
  | succ fuel ih =>
    simp only [readBlockLines] at h
    split at h
    · cases h
      exact ⟨hpending, hbreaks, [], by rw [List.append_nil], .refl _⟩
    · generalize hjoint : (if (!literal && pending.head? == some '\n' && !afterBlank &&
        !cur.peek.any isGap) = true then if breaks.isEmpty = true then [' '] else [] else pending) =
        joint at h
      have hjoint : ink joint = [] := by
        rw [← hjoint]
        split
        · split <;> rfl
        · exact hpending
      have hline := cur.rest_takeWhile fun c => !isBreak c
      generalize cur.takeWhile (fun c => !isBreak c) = taken at h hline
      split at h
      · cases h
      · next hmore =>
        obtain ⟨hbreaks', hblank⟩ := inks_readBlockBreaks hmore rfl
        obtain ⟨hlast, hmore', out, htext, hnext⟩ := ih h (ink_breakLine _) hbreaks'
        refine ⟨hlast, hmore', ink taken.1 ++ out, ?_, ?_⟩
        · rw [htext, ink_append, ink_append, ink_append, hjoint, hbreaks]
          simp
        · have hfirst : Inks (ink taken.1) cur taken.2 := ⟨taken.1, hline.symm, rfl⟩
          exact hfirst.trans ((Inks.breakLine taken.2).blank_trans (hblank.blank_trans hnext))

/-- A block scalar has the same text as its lines, up to white space. -/
theorem inks_readBlock {literal : Bool} {outer : ℕ} {text : List Char}
    (h : readBlock literal outer cur = some (text, next)) :
    ∃ marks a inside, cur.rest = marks ++ a ∧ marks.length ≤ 2 ∧ (∀ c ∈ marks, isHeaderMark c) ∧
      LineEnd a (inside ++ next.rest) ∧ ink text = ink inside := by
  obtain ⟨⟨chomp, n, cur₁⟩, hheader, h⟩ := Option.bind_eq_some_iff.mp h
  obtain ⟨cur₂, hend, h⟩ := Option.bind_eq_some_iff.mp h
  obtain ⟨⟨breaks, widest, cur₃⟩, hbreaks, h⟩ := Option.bind_eq_some_iff.mp h
  obtain ⟨⟨lines, pending, more, cur₄⟩, hlines, h⟩ := Option.bind_eq_some_iff.mp h
  obtain ⟨marks, hmarks, hlength, hmark⟩ := header_readBlockHeader hheader
  obtain ⟨hblank, hcur₃⟩ := inks_readBlockBreaks hbreaks rfl
  obtain ⟨hpending, hmore, out, hout, hcur₄⟩ := inks_readBlockLines hlines rfl hblank
  obtain ⟨inside, hinside, hink⟩ := hcur₃.blank_trans hcur₄
  obtain ⟨rfl, htext⟩ : cur₄ = next ∧ ink text = ink lines := by
    cases chomp <;> cases h <;> simp [hpending, hmore]
  refine ⟨marks, cur₁.rest, inside, hmarks, hlength, hmark, ?_, ?_⟩
  · rw [← hinside]
    exact lineEnd_of_readLineEnd hend
  · rw [htext, hout, hink]
    rfl

/-! ### Quoted scalars -/

/-- The inside of a quoted scalar, and its text without white space. -/
inductive Quoted (single : Bool) : List Char → List Char → Prop where
  | nil : Quoted single [] []
  | white {c : Char} {inside out : List Char} (hc : endsWord (some c))
      (h : Quoted single inside out) : Quoted single (c :: inside) out
  | char {c : Char} {inside out : List Char} (hc : isInk c)
      (hquote : c.toNat ≠ if single then 39 else 34) (hescape : single ∨ c ≠ '\\')
      (h : Quoted single inside out) : Quoted single (c :: inside) (c :: out)
  | doubled {c : Char} {inside out : List Char} (hsingle : single) (hc : c.toNat = 39)
      (h : Quoted single inside out) : Quoted single (c :: c :: inside) (c :: out)
  | letter {c : Char} {n : ℕ} {inside out : List Char} (hdouble : !single)
      (hc : simpleEscape? c = some n) (h : Quoted single inside out) :
      Quoted single ('\\' :: c :: inside) (ink [Char.ofNat n] ++ out)
  | digits {c d : Char} {width : ℕ} {digits inside out : List Char} (hdouble : !single)
      (hc : escapeWidth? c = some width) (hwidth : digits.length = width)
      (hd : hexChar? digits = some d) (h : Quoted single inside out) :
      Quoted single ('\\' :: c :: (digits ++ inside)) (ink [d] ++ out)
  | lineBreak {inside out : List Char} (hdouble : !single) (hbreak : inside.head?.any isBreak)
      (h : Quoted single inside out) : Quoted single ('\\' :: inside) out

namespace Quoted

variable {single : Bool} {inside inside' out out' : List Char}

theorem append (h : Quoted single inside out) (h' : Quoted single inside' out') :
    Quoted single (inside ++ inside') (out ++ out') := by
  induction h with
  | nil => exact h'
  | white hc _ ih => exact .white hc ih
  | char hc hquote hescape _ ih => exact .char hc hquote hescape ih
  | doubled hsingle hc _ ih => exact .doubled hsingle hc ih
  | letter hdouble hc _ ih =>
    rw [List.append_assoc]
    exact .letter hdouble hc ih
  | digits hdouble hc hwidth hd _ ih =>
    rw [List.cons_append, List.cons_append, List.append_assoc, List.append_assoc]
    exact .digits hdouble hc hwidth hd ih
  | lineBreak hdouble hbreak _ ih =>
    refine .lineBreak hdouble ?_ ih
    obtain ⟨c, hc, hbreak⟩ := (Option.any_eq_true _ _).mp hbreak
    obtain ⟨tail, rfl⟩ := List.head?_eq_some_iff.mp hc
    exact hbreak

theorem ofWhite (h : ink inside = []) : Quoted single inside [] := by
  rw [ink_eq_nil_iff] at h
  induction inside with
  | nil => exact .nil
  | cons c inside ih =>
    exact .white (h c (List.mem_cons_self ..)) (ih fun d hd => h d (List.mem_cons_of_mem _ hd))

end Quoted

/-- What a part of a quoted scalar adds to the text before it. -/
def Quotes (single : Bool) (text text' : List Char) (cur next : Cursor) : Prop :=
  ∃ inside out, cur.rest = inside ++ next.rest ∧ ink text' = ink text ++ out ∧
    Quoted single inside out

namespace Quotes

variable {single : Bool} {text text₁ text' : List Char}

theorem refl (text : List Char) (cur : Cursor) : Quotes single text text cur cur :=
  ⟨[], [], rfl, by rw [List.append_nil], .nil⟩

theorem trans (h : Quotes single text text₁ cur mid) (h' : Quotes single text₁ text' mid next) :
    Quotes single text text' cur next := by
  obtain ⟨first, out, hcur, htext, hfirst⟩ := h
  obtain ⟨second, out', hmid, htext', hsecond⟩ := h'
  refine ⟨first ++ second, out ++ out', ?_, ?_, hfirst.append hsecond⟩
  · rw [hcur, hmid, List.append_assoc]
  · rw [htext', htext, List.append_assoc]

theorem ofWhite (h : Inks [] cur next) (htext : ink text' = []) :
    Quotes single text (text ++ text') cur next := by
  obtain ⟨inside, hcur, hinside⟩ := h
  exact ⟨inside, [], hcur, by rw [ink_append, htext], .ofWhite hinside⟩

end Quotes

theorem quotes_readEscape {single : Bool} {text : List Char} {c : Char} (hdouble : !single)
    (hpeek : cur.peek = some '\\') (h : readEscape (cur.skip 1) = some (c, next)) :
    Quotes single text (text ++ [c]) cur next := by
  obtain ⟨letter, hletter, h⟩ := Option.bind_eq_some_iff.mp h
  have hcur : cur.rest = '\\' :: letter :: ((cur.skip 1).skip 1).rest := by
    rw [Cursor.rest_of_peek hpeek, Cursor.rest_of_peek hletter]
  split at h
  · next n hn =>
    cases h
    refine ⟨['\\', letter], ink [Char.ofNat n] ++ [], hcur, by simp, ?_⟩
    exact .letter hdouble hn .nil
  · obtain ⟨width, hwidth, h⟩ := Option.bind_eq_some_iff.mp h
    dsimp only at h
    split at h
    · cases h
    · next hlong =>
      obtain ⟨char, hchar, ⟨⟩⟩ := Option.bind_eq_some_iff.mp h
      refine ⟨_, ink [c] ++ [], ?_, by simp, .digits hdouble hwidth ?_ hchar .nil⟩
      · rw [hcur, List.append_nil, List.cons_append, List.cons_append]
        have hdrop : ((cur.skip 1).skip (width + 1)).rest =
            (((cur.skip 1).skip 1).rest).drop width := by
          simp only [Cursor.rest_skip, List.drop_drop]
          congr 1
          omega
        rw [hdrop, Cursor.rest_skip, List.take_append_drop]
      · rw [List.length_take] at hlong ⊢
        omega

theorem quotes_lineBreak {single : Bool} {text : List Char} (hdouble : !single)
    (hpeek : cur.peek = some '\\') (hbreak : (cur.ahead 1).any isBreak) :
    Quotes single text text cur (cur.skip 1).breakLine.2 := by
  obtain ⟨ending, hending, hbreaks, hne⟩ := (cur.skip 1).exists_of_breakLine
  refine ⟨'\\' :: ending, [], ?_, by rw [List.append_nil], ?_⟩
  · rw [Cursor.rest_of_peek hpeek, hending, List.cons_append]
  · refine .lineBreak hdouble ?_ (.ofWhite (ink_of_breaks hbreaks))
    have hnext : (cur.skip 1).peek.any isBreak := by
      simpa [Cursor.peek, Cursor.ahead, List.head?_eq_getElem?] using hbreak
    obtain ⟨c, tail, rfl⟩ := List.exists_cons_of_ne_nil (hne hnext)
    exact hbreaks c (List.mem_cons_self ..)

theorem quotes_quotedRun {single escaped : Bool} {text text' : List Char}
    (h : quotedRun single fuel text cur = some (text', escaped, next)) :
    Quotes single text text' cur next := by
  induction fuel generalizing text cur with
  | zero => cases h
  | succ fuel ih =>
    simp only [quotedRun] at h
    split at h
    · cases h
      exact .refl _ _
    · next c hpeek =>
      rcases ite_eq_iff.mp h with ⟨-, h⟩ | ⟨hink, h⟩
      · cases h
        exact .refl _ _
      have hink : isInk c := by simpa [isInk] using hink
      have hself : ink [c] = [c] := by simp [ink, hink]
      rcases ite_eq_iff.mp h with ⟨hdoubled, h⟩ | ⟨-, h⟩
      · simp only [Bool.and_eq_true, beq_iff_eq] at hdoubled
        obtain ⟨⟨hsingle, hc⟩, hahead⟩ := hdoubled
        refine .trans ⟨[c, c], [c], Cursor.rest_of_ahead hpeek hahead, ?_, ?_⟩ (ih h)
        · rw [ink_append, hself]
        · exact .doubled hsingle hc .nil
      rcases ite_eq_iff.mp h with ⟨-, h⟩ | ⟨hquote, h⟩
      · cases h
        exact .refl _ _
      rcases ite_eq_iff.mp h with ⟨hescape, h⟩ | ⟨hescape, h⟩
      · obtain ⟨hdouble, hc⟩ := Bool.and_eq_true_iff.mp hescape
        have hmark : cur.peek = some '\\' := beq_iff_eq.mp hc ▸ hpeek
        rcases ite_eq_iff.mp h with ⟨hbreak, h⟩ | ⟨-, h⟩
        · cases h
          exact quotes_lineBreak hdouble hmark hbreak
        · split at h
          · cases h
          · next hread => exact (quotes_readEscape hdouble hmark hread).trans (ih h)
      · refine .trans ⟨[c], [c], Cursor.rest_of_peek hpeek, ?_, ?_⟩ (ih h)
        · rw [ink_append, hself]
        · refine .char hink (by simpa using hquote) ?_ .nil
          cases single
          · exact .inr (by simpa using hescape)
          · exact .inl rfl

/-- A quoted scalar after its opening quote. -/
theorem quotes_readQuoted {single : Bool} {text text' : List Char}
    (h : readQuoted single fuel text cur = some (text', next)) :
    ∃ last close, Quotes single text text' cur last ∧ last.rest = close :: next.rest ∧
      close.toNat = if single then 39 else 34 := by
  induction fuel generalizing text cur with
  | zero => cases h
  | succ fuel ih =>
    simp only [readQuoted] at h
    rcases ite_eq_iff.mp h with ⟨-, h⟩ | ⟨-, h⟩
    · cases h
    split at h
    · cases h
    · next run hrun =>
      have hquotes := quotes_quotedRun hrun
      rcases ite_eq_iff.mp h with ⟨hclose, h⟩ | ⟨-, h⟩
      · cases h
        obtain ⟨close, hpeek, hquote⟩ := (Option.any_eq_true _ _).mp hclose
        exact ⟨_, close, hquotes, Cursor.rest_of_peek hpeek, by simpa using hquote⟩
      · split at h
        · cases h
        · next hgap =>
          obtain ⟨hblank, hwhite⟩ := Gap.blank_of_read hgap ⟨rfl, rfl, rfl⟩
          obtain ⟨last, close, hlast, hclose⟩ := ih h
          exact ⟨last, close, hquotes.trans ((Quotes.ofWhite hwhite hblank.text).trans hlast),
            hclose⟩

/-! ### Plain scalars -/

theorem prefix_plainRun {inFlow : Bool} {cs taken : List Char}
    (h : plainRun inFlow cs = some taken) : taken <+: cs := by
  induction cs generalizing taken with
  | nil =>
    cases h
    exact List.prefix_rfl
  | cons c cs ih =>
    simp only [plainRun] at h
    split at h
    · cases h
      exact List.nil_prefix
    · split at h
      · cases h
      · split at h
        · cases h
          exact List.nil_prefix
        · obtain ⟨tail, htail, rfl⟩ := Option.map_eq_some_iff.mp h
          exact List.cons_prefix_cons.mpr ⟨rfl, ih htail⟩

/-- A plain scalar has the same text as its characters, up to white space. -/
theorem inks_readPlain {inFlow broken : Bool} {margin : ℕ} {gap : Gap} {text text' : List Char}
    (h : readPlain inFlow margin fuel gap text cur = some (text', broken, next))
    (hgap : gap.Blank) : ∃ out, ink text' = ink text ++ out ∧ Inks out cur next := by
  induction fuel generalizing gap text cur with
  | zero => cases h
  | succ fuel ih =>
    simp only [readPlain] at h
    split at h
    · cases h
      exact ⟨[], by rw [List.append_nil], .refl _⟩
    · split at h
      · cases h
      · next taken htaken =>
        have hcur := List.prefix_iff_eq_append.mp (prefix_plainRun htaken)
        have htake : Inks (ink taken) cur (cur.skip taken.length) := ⟨taken, hcur.symm, rfl⟩
        -- What is known after the run, whether it took anything or not.
        generalize hgap' : (if taken.isEmpty then gap else {}) = gap' at h
        generalize htext' : (if taken.isEmpty then text else text ++ gap.text ++ taken) = run at h
        have hblank : gap'.Blank := by
          rw [← hgap']
          split
          · exact hgap
          · exact ⟨rfl, rfl, rfl⟩
        have hrun : ink run = ink text ++ ink taken := by
          rw [← htext']
          split
          · next hnil => simp [List.isEmpty_iff.mp hnil]
          · simp [hgap.text]
        split at h
        · cases h
          exact ⟨ink taken, hrun, htake⟩
        · split at h
          · cases h
            exact ⟨ink taken, hrun, htake⟩
          · split at h
            · cases h
            · next hread =>
              obtain ⟨hblank', hwhite⟩ := Gap.blank_of_read hread hblank
              split at h
              · cases h
                exact ⟨ink taken ++ [], by rw [hrun, List.append_nil], htake.trans hwhite⟩
              · obtain ⟨out, htext, hnext⟩ := ih h hblank'
                refine ⟨ink taken ++ out, ?_, htake.trans (hwhite.blank_trans hnext)⟩
                rw [htext, hrun, List.append_assoc]

/-! ### The tokens of a text -/

/-- The tokens that are one character. -/
def mark? : Token → Option Char
  | .flowSequenceStart => some '['
  | .flowSequenceEnd => some ']'
  | .flowMappingStart => some '{'
  | .flowMappingEnd => some '}'
  | .blockEntry => some '-'
  | .flowEntry => some ','
  | .key => some '?'
  | .value => some ':'
  | _ => none

/-- A text starts with a token, and the second text is what follows it. -/
inductive Written : Token → List Char → List Char → Prop where
  | mark {t : Token} {c : Char} (b : List Char) (h : t.mark? = some c) : Written t (c :: b) b
  | documentStart {b : List Char} (h : endsWord b.head?) :
      Written .documentStart ('-' :: '-' :: '-' :: b) b
  | documentEnd {b : List Char} (h : endsWord b.head?) :
      Written .documentEnd ('.' :: '.' :: '.' :: b) b
  | aliasOf (name : String) (b : List Char) : Written (.aliasOf name) ('*' :: (name.toList ++ b)) b
  | anchor (name : String) (b : List Char) : Written (.anchor name) ('&' :: (name.toList ++ b)) b
  | tag {handle : String} {suffix : Tag} {word : List Char} (b : List Char)
      (hword : ∀ c ∈ word, isInk c) : Written (.tag handle suffix) ('!' :: (word ++ b)) b
  | directive {t : Token} {inside a b : List Char} (h : Directs t inside) (hend : LineEnd a b) :
      Written t ('%' :: (inside ++ a)) b
  | quoted {single : Bool} {quote : Char} {text : String} {inside : List Char} (b : List Char)
      (hquote : quote.toNat = if single then 39 else 34)
      (h : Quoted single inside (ink text.toList)) :
      Written (.scalar text false) (quote :: (inside ++ quote :: b)) b
  | block {c : Char} {text : String} {marks a inside b : List Char} (hc : c = '|' ∨ c = '>')
      (hlength : marks.length ≤ 2) (hmarks : ∀ c ∈ marks, isHeaderMark c)
      (hend : LineEnd a (inside ++ b)) (h : ink text.toList = ink inside) :
      Written (.scalar text false) (c :: (marks ++ a)) b
  | plain {text : String} {inside : List Char} (b : List Char) (h : ink text.toList = ink inside) :
      Written (.scalar text true) (inside ++ b) b

theorem Written.suffix {t : Token} {a b : List Char} (h : t.Written a b) : b <:+ a := by
  cases h with
  | mark b _ => exact List.suffix_cons _ _
  | documentStart _ => exact List.suffix_append ['-', '-', '-'] b
  | documentEnd _ => exact List.suffix_append ['.', '.', '.'] b
  | aliasOf name b => exact List.suffix_append ('*' :: name.toList) b
  | anchor name b => exact List.suffix_append ('&' :: name.toList) b
  | @tag _ _ word b _ => exact List.suffix_append ('!' :: word) b
  | directive _ hend =>
    exact hend.suffix.trans ((List.suffix_append _ _).trans (List.suffix_cons _ _))
  | quoted b _ _ =>
    exact (List.suffix_cons _ b).trans ((List.suffix_append _ _).trans (List.suffix_cons _ _))
  | block _ _ _ hend _ =>
    exact (List.suffix_append _ b).trans
      (hend.suffix.trans ((List.suffix_append _ _).trans (List.suffix_cons _ _)))
  | plain b _ => exact List.suffix_append _ b

end Token

end TreeSchema.Document.Yaml
