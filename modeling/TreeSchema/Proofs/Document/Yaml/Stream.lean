import TreeSchema.Document.Yaml.Token.Stream
import TreeSchema.Proofs.Document.Yaml.Token

/-!
# The text of a token stream

A token stream leaves nothing out: the tokens that were taken, the tokens that are held back and
the characters that are still to be read make up the text, with white space and comments between
them. Only the tokens of the layout stand for no characters.
-/

namespace TreeSchema.Document.Yaml

theorem Stream.filler_skipToToken (s : Stream) (fuel : ℕ) (cur : Cursor) (keyAllowed : Bool) :
    Filler cur.rest (s.skipToToken fuel cur keyAllowed).1.rest := by
  induction fuel generalizing cur keyAllowed with
  | zero => exact .nil _
  | succ fuel ih =>
    simp only [skipToToken]
    generalize hfirst : (if cur.column == 0 && cur.peek.any (·.toNat == 0xFEFF) then cur.skip 1
      else cur) = first
    have hmark : Filler cur.rest first.rest := by
      rw [← hfirst]
      split
      · next hc =>
        obtain ⟨c, hpeek, hc⟩ := (Option.any_eq_true _ _).mp (Bool.and_eq_true_iff.mp hc).2
        rw [Cursor.rest_of_peek hpeek]
        exact .white (by rw [isWhite, hc, Bool.or_true]) (.nil _)
      · exact .nil _
    generalize hsecond : (first.skipWhile fun c =>
      c == ' ' || ((s.inFlow || !keyAllowed) && c == '\t')) = second
    have hblanks : Filler first.rest second.rest := by
      rw [← hsecond, Cursor.rest_skipWhile]
      refine .dropWhile (fun c hc => ?_) _
      simp only [Bool.or_eq_true, Bool.and_eq_true] at hc
      simp only [isWhite, isGap, Bool.or_eq_true]
      tauto
    generalize hthird : (if second.peek == some '#' then second.skipWhile fun c => !isBreak c
      else second) = third
    have hcomment : Filler second.rest third.rest := by
      rw [← hthird]
      split
      · next hc =>
        rw [Cursor.rest_skipWhile]
        exact .ofComment (beq_iff_eq.mp hc)
      · exact .nil _
    have hline := hmark.trans (hblanks.trans hcomment)
    split
    · exact hline.trans ((Filler.breakLine third).trans (ih _ _))
    · exact hline

/-! ### Texts of tokens -/

/-- The tokens that indentation and colons stand for. -/
def Token.isLayout : Token → Bool
  | .blockSequenceStart | .blockMappingStart | .blockEnd | .key => true
  | _ => false

/-- The first text consists of the tokens and of the second text, with white space and comments
before each token. It must be known that nothing follows the text for a token to be its end. -/
inductive Spelled (whole : Bool) : List Token → List Char → List Char → Prop where
  | nil (a : List Char) : Spelled whole [] a a
  | layout {t : Token} {ts : List Token} {a b : List Char} (ht : t.isLayout)
      (h : Spelled whole ts a b) : Spelled whole (t :: ts) a b
  | token {t : Token} {ts : List Token} {a b c d : List Char} (gap : Filler a b)
      (ht : t.Written b c) (h : Spelled whole ts c d) : Spelled whole (t :: ts) a d
  | streamEnd {ts : List Token} {a b : List Char} (hwhole : whole) (gap : Filler a [])
      (h : Spelled whole ts [] b) : Spelled whole (.streamEnd :: ts) a b

namespace Spelled

variable {whole : Bool} {ts us : List Token} {a b c : List Char}

theorem append (h : Spelled whole ts a b) (h' : Spelled whole us b c) :
    Spelled whole (ts ++ us) a c := by
  induction h with
  | nil a => exact h'
  | layout ht _ ih => exact .layout ht (ih h')
  | token gap ht _ ih => exact .token gap ht (ih h')
  | streamEnd hwhole gap _ ih => exact .streamEnd hwhole gap (ih h')

theorem split (h : Spelled whole (ts ++ us) a c) :
    ∃ b, Spelled whole ts a b ∧ Spelled whole us b c := by
  induction ts generalizing a with
  | nil => exact ⟨a, .nil a, h⟩
  | cons t ts ih =>
    cases h with
    | layout ht h =>
      obtain ⟨b, hts, hus⟩ := ih h
      exact ⟨b, .layout ht hts, hus⟩
    | token gap ht h =>
      obtain ⟨b, hts, hus⟩ := ih h
      exact ⟨b, .token gap ht hts, hus⟩
    | streamEnd hwhole gap h =>
      obtain ⟨b, hts, hus⟩ := ih h
      exact ⟨b, .streamEnd hwhole gap hts, hus⟩

theorem insert {t : Token} (ht : t.isLayout) (h : Spelled whole (ts ++ us) a c) :
    Spelled whole (ts ++ t :: us) a c := by
  obtain ⟨b, hts, hus⟩ := h.split
  exact hts.append (.layout ht hus)

theorem push {t : Token} (ht : t.isLayout) (h : Spelled whole ts a b) :
    Spelled whole (ts ++ [t]) a b :=
  h.append (.layout ht (.nil b))

theorem suffix (h : Spelled whole ts a b) : b <:+ a := by
  induction h with
  | nil a => exact List.suffix_rfl
  | layout _ _ ih => exact ih
  | token gap ht _ ih => exact ih.trans (ht.suffix.trans gap.suffix)
  | streamEnd _ gap _ ih => exact ih.trans gap.suffix

theorem of_documentEnd (h : Spelled whole (.documentEnd :: ts) a c) :
    ∃ b, Filler a ('.' :: '.' :: '.' :: b) ∧ endsWord b.head? ∧ Spelled whole ts b c := by
  cases h with
  | layout ht _ => cases ht
  | token gap ht h =>
    cases ht with
    | mark b hmark => cases hmark
    | directive hdirective _ => cases hdirective
    | documentEnd hend => exact ⟨_, gap, hend, h⟩

theorem of_streamEnd (h : Spelled whole (.streamEnd :: ts) a c) : whole ∧ Filler a [] := by
  cases h with
  | layout ht _ => cases ht
  | token gap ht _ =>
    cases ht with
    | mark b hmark => cases hmark
    | directive hdirective _ => cases hdirective
  | streamEnd hwhole gap _ => exact ⟨hwhole, gap⟩

end Spelled

namespace Stream

/-! ### Changes that read nothing -/

/-- Nothing was read, and only tokens of the layout were put into the queue. -/
structure Padded (s s' : Stream) : Prop where
  rest : s'.cursor.rest = s.cursor.rest
  taken : s'.taken = s.taken
  whole : s'.whole = s.whole
  queue {w : Bool} {a b : List Char} : Spelled w s.queue a b → Spelled w s'.queue a b

variable {s s' s₁ : Stream}

theorem Padded.refl (s : Stream) : Padded s s := ⟨rfl, rfl, rfl, id⟩

theorem Padded.trans (h : Padded s s₁) (h' : Padded s₁ s') : Padded s s' :=
  ⟨h'.rest.trans h.rest, h'.taken.trans h.taken, h'.whole.trans h.whole, h'.queue ∘ h.queue⟩

theorem padded_push {t : Token} (ht : t.isLayout) (s : Stream) : Padded s (s.push t) :=
  ⟨rfl, rfl, rfl, fun h => h.push ht⟩

theorem padded_insertAt {t : Token} (ht : t.isLayout) (number : ℕ) (s : Stream) :
    Padded s (s.insertAt number t) := by
  refine ⟨rfl, rfl, rfl, fun h => Spelled.insert ht ?_⟩
  rwa [List.take_append_drop]

theorem padded_dropStale (h : s.dropStale = some s') : Padded s s' := by
  simp only [dropStale] at h
  split at h
  · cases h
  · cases h
    exact ⟨rfl, rfl, rfl, id⟩

theorem padded_forgetKey (h : s.forgetKey = some s') : Padded s s' := by
  unfold forgetKey at h
  split at h
  · split at h
    · cases h
    · cases h
      exact ⟨rfl, rfl, rfl, id⟩
  · cases h
    exact .refl s

theorem padded_saveKey (h : s.saveKey = some s') : Padded s s' := by
  simp only [saveKey] at h
  split at h
  · cases h
    exact .refl s
  · obtain ⟨s₁, hforget, rfl⟩ := Option.map_eq_some_iff.mp h
    exact (padded_forgetKey hforget).trans ⟨rfl, rfl, rfl, id⟩

theorem padded_indentTo (s : Stream) (column : ℕ) {insert : Stream → Stream}
    (h : ∀ s, Padded s (insert s)) : Padded s (s.indentTo column insert) := by
  unfold indentTo
  split
  · exact .refl s
  · have hopen : Padded s { s with margin := column + 1, outer := s.margin :: s.outer } :=
      ⟨rfl, rfl, rfl, id⟩
    exact hopen.trans (h _)

theorem spelled_closeBlocks {w : Bool} {limit margin : ℕ} {outer : List ℕ} {queue : List Token}
    {a b : List Char} (h : Spelled w queue a b) :
    Spelled w (closeBlocks limit margin outer queue).1 a b := by
  induction outer generalizing margin queue with
  | nil => exact h
  | cons next outer ih =>
    unfold closeBlocks
    split
    · exact ih (h.push rfl)
    · exact h

theorem padded_dedentTo (s : Stream) (limit : ℕ) : Padded s (s.dedentTo limit) := by
  unfold dedentTo
  split
  · exact .refl s
  · exact ⟨rfl, rfl, rfl, spelled_closeBlocks⟩

theorem padded_closeAll (h : s.closeAll = some s') : Padded s s' := by
  obtain ⟨s₁, hforget, rfl⟩ := Option.map_eq_some_iff.mp h
  exact ((padded_dedentTo s 0).trans (padded_forgetKey hforget)).trans ⟨rfl, rfl, rfl, id⟩

theorem padded_startBlock {t : Token} (ht : t.isLayout) (h : s.startBlock t = some s') :
    Padded s s' := by
  unfold startBlock at h
  split at h
  · cases h
    exact .refl s
  · split at h
    · cases h
    · cases h
      exact padded_indentTo s _ (padded_push ht)

/-! ### Finding tokens -/

/-- One token was read, and the queue has it at its end. -/
structure Fetched (s s' : Stream) : Prop where
  taken : s'.taken = s.taken
  whole : s'.whole = s.whole
  queue {a b : List Char} : Spelled s.whole s.queue a b → Filler b s.cursor.rest →
    Spelled s.whole s'.queue a s'.cursor.rest

/-- The token was appended; what may start next plays no part. -/
structure Pushed (t : Token) (s s' : Stream) : Prop where
  queue : s'.queue = s.queue ++ [t]
  taken : s'.taken = s.taken
  whole : s'.whole = s.whole

theorem Padded.fetched (h : Padded s s₁) {t : Token} (ht : t.Written s.cursor.rest s'.cursor.rest)
    (hpush : Pushed t s₁ s') : Fetched s s' := by
  refine ⟨hpush.taken.trans h.taken, hpush.whole.trans h.whole, fun hqueue gap => ?_⟩
  rw [hpush.queue]
  exact (h.queue hqueue).append (.token gap ht (.nil _))

/-- A mark of one character was passed over. -/
theorem Padded.fetchedMark (h : Padded s s₁) {t : Token} {c : Char}
    (hpeek : s.cursor.peek = some c) (ht : t.mark? = some c)
    (hcursor : s'.cursor = s₁.cursor.skip 1) (hpush : Pushed t s₁ s') : Fetched s s' := by
  refine h.fetched ?_ hpush
  rw [hcursor, Cursor.rest_skip, h.rest, Cursor.rest_of_peek hpeek]
  exact .mark _ ht

theorem fetched_fetchEnd (h : s.fetchEnd = some s') (hrest : s.cursor.rest = [])
    (hwhole : s.whole) : Fetched s s' := by
  obtain ⟨s₁, hclose, rfl⟩ := Option.map_eq_some_iff.mp h
  generalize hcur : (if s.cursor.column == 0 then s.cursor
    else { s.cursor with column := 0, line := s.cursor.line + 1 }) = cur at hclose
  have hnil : cur.rest = [] := by
    rw [← hcur]
    split <;> exact hrest
  have hs₁ := padded_closeAll hclose
  refine ⟨hs₁.taken, hs₁.whole, fun hqueue gap => ?_⟩
  rw [hrest] at gap
  have hend : Spelled s.whole [.streamEnd] _ [] := .streamEnd hwhole gap (.nil [])
  have hlast : (s₁.push .streamEnd).cursor.rest = [] := hs₁.rest.trans hnil
  rw [hlast]
  exact (hs₁.queue hqueue).append hend

theorem fetched_fetchDirective (h : s.fetchDirective = some s')
    (hpeek : s.cursor.peek = some '%') : Fetched s s' := by
  obtain ⟨s₁, hclose, h⟩ := Option.bind_eq_some_iff.mp h
  obtain ⟨⟨t, next⟩, hread, ⟨⟩⟩ := Option.bind_eq_some_iff.mp h
  have hs₁ := padded_closeAll hclose
  obtain ⟨inside, a, hinside, ht, hend⟩ := Token.directs_of_readDirective hread
  refine hs₁.fetched ?_ ⟨rfl, rfl, rfl⟩
  rw [Cursor.rest_after hpeek hs₁.rest, hinside]
  exact .directive ht hend

theorem fetched_fetchSeparator {t : Token} (h : s.fetchSeparator t = some s')
    (ht : t.Written s.cursor.rest (s.cursor.rest.drop 3)) : Fetched s s' := by
  obtain ⟨s₁, hclose, ⟨⟩⟩ := Option.bind_eq_some_iff.mp h
  have hs₁ := padded_closeAll hclose
  refine hs₁.fetched ?_ ⟨rfl, rfl, rfl⟩
  rw [← hs₁.rest] at ht ⊢
  exact ht

theorem fetched_fetchOpen {t : Token} {c : Char} (h : s.fetchOpen t = some s')
    (hpeek : s.cursor.peek = some c) (ht : t.mark? = some c) : Fetched s s' := by
  obtain ⟨s₁, hsave, ⟨⟩⟩ := Option.bind_eq_some_iff.mp h
  exact (padded_saveKey hsave).fetchedMark hpeek ht rfl ⟨rfl, rfl, rfl⟩

theorem fetched_fetchClose {t : Token} {c : Char} (h : s.fetchClose t = some s')
    (hpeek : s.cursor.peek = some c) (ht : t.mark? = some c) : Fetched s s' := by
  obtain ⟨s₁, hforget, ⟨⟩⟩ := Option.bind_eq_some_iff.mp h
  refine (padded_forgetKey hforget).fetchedMark hpeek ht ?_ ?_
  · split <;> rfl
  · split <;> exact ⟨rfl, rfl, rfl⟩

theorem fetched_fetchFlowEntry (h : s.fetchFlowEntry = some s')
    (hpeek : s.cursor.peek = some ',') : Fetched s s' := by
  obtain ⟨s₁, hforget, ⟨⟩⟩ := Option.bind_eq_some_iff.mp h
  exact (padded_forgetKey hforget).fetchedMark hpeek (t := .flowEntry) rfl rfl ⟨rfl, rfl, rfl⟩

theorem fetched_fetchBlockEntry (h : s.fetchBlockEntry = some s')
    (hpeek : s.cursor.peek = some '-') : Fetched s s' := by
  obtain ⟨s₁, hstart, h⟩ := Option.bind_eq_some_iff.mp h
  obtain ⟨s₂, hforget, ⟨⟩⟩ := Option.bind_eq_some_iff.mp h
  have hs₂ := (padded_startBlock rfl hstart).trans (padded_forgetKey hforget)
  exact hs₂.fetchedMark hpeek (t := .blockEntry) rfl rfl ⟨rfl, rfl, rfl⟩

theorem fetched_fetchKey (h : s.fetchKey = some s') (hpeek : s.cursor.peek = some '?') :
    Fetched s s' := by
  obtain ⟨s₁, hstart, h⟩ := Option.bind_eq_some_iff.mp h
  obtain ⟨s₂, hforget, ⟨⟩⟩ := Option.bind_eq_some_iff.mp h
  have hs₂ := (padded_startBlock rfl hstart).trans (padded_forgetKey hforget)
  exact hs₂.fetchedMark hpeek (t := .key) rfl rfl ⟨rfl, rfl, rfl⟩

theorem fetched_fetchValue (h : s.fetchValue = some s') (hpeek : s.cursor.peek = some ':') :
    Fetched s s' := by
  simp only [fetchValue] at h
  split at h
  · next c rest _ =>
    cases h
    have hkey : Padded s (s.insertAt c.number .key) := padded_insertAt rfl c.number s
    have hblock := hkey.trans (padded_indentTo _ c.column fun s =>
      padded_insertAt (t := .blockMappingStart) rfl c.number s)
    exact hblock.fetchedMark hpeek (t := .value) rfl rfl ⟨rfl, rfl, rfl⟩
  · obtain ⟨s₁, hs₁, h⟩ := Option.bind_eq_some_iff.mp h
    obtain ⟨s₂, hstart, rfl⟩ := Option.map_eq_some_iff.mp hs₁
    cases h
    have hs₂ : Padded s s₂ := padded_startBlock rfl hstart
    exact hs₂.fetchedMark hpeek (t := .value) rfl rfl ⟨rfl, rfl, rfl⟩

theorem fetched_fetchWord {read : Cursor → Option (Token × Cursor)} (h : s.fetchWord read = some s')
    (hread : ∀ cur t next, cur.rest = s.cursor.rest → read cur = some (t, next) →
      t.Written s.cursor.rest next.rest) : Fetched s s' := by
  obtain ⟨s₁, hsave, h⟩ := Option.bind_eq_some_iff.mp h
  obtain ⟨⟨t, next⟩, ht, ⟨⟩⟩ := Option.bind_eq_some_iff.mp h
  have hs₁ := padded_saveKey hsave
  exact hs₁.fetched (hread _ _ _ hs₁.rest ht) ⟨rfl, rfl, rfl⟩

theorem fetched_fetchBlock {literal : Bool} {c : Char} (h : s.fetchBlock literal = some s')
    (hpeek : s.cursor.peek = some c) (hc : c = '|' ∨ c = '>') : Fetched s s' := by
  obtain ⟨s₁, hforget, h⟩ := Option.bind_eq_some_iff.mp h
  obtain ⟨⟨text, next⟩, hread, ⟨⟩⟩ := Option.bind_eq_some_iff.mp h
  have hs₁ := padded_forgetKey hforget
  obtain ⟨marks, a, inside, hmarks, hlength, hheader, hend, htext⟩ := Token.inks_readBlock hread
  refine hs₁.fetched ?_ ⟨rfl, rfl, rfl⟩
  rw [Cursor.rest_after hpeek hs₁.rest, hmarks]
  exact .block hc hlength hheader hend (by rwa [String.toList_ofList])

theorem fetched_fetchQuoted {single : Bool} {quote : Char} (h : s.fetchQuoted single = some s')
    (hpeek : s.cursor.peek = some quote) (hquote : quote.toNat = if single then 39 else 34) :
    Fetched s s' := by
  refine fetched_fetchWord h fun cur t next hcur hread => ?_
  obtain ⟨⟨text, last⟩, hread, ⟨⟩⟩ := Option.bind_eq_some_iff.mp hread
  obtain ⟨stop, close, ⟨inside, out, hinside, hout, hquoted⟩, hlast, hclose⟩ :=
    Token.quotes_readQuoted hread
  obtain rfl : close = quote := Char.toNat_inj.mp (hclose.trans hquote.symm)
  rw [Cursor.rest_after hpeek hcur, hinside, hlast]
  refine .quoted _ hquote ?_
  rw [String.toList_ofList, hout]
  exact hquoted

theorem fetched_fetchPlain (h : s.fetchPlain = some s') : Fetched s s' := by
  obtain ⟨s₁, hsave, h⟩ := Option.bind_eq_some_iff.mp h
  obtain ⟨⟨text, broken, next⟩, hread, ⟨⟩⟩ := Option.bind_eq_some_iff.mp h
  have hs₁ := padded_saveKey hsave
  obtain ⟨out, hout, inside, hinside, hink⟩ := Token.inks_readPlain hread ⟨rfl, rfl, rfl⟩
  refine hs₁.fetched ?_ ⟨rfl, rfl, rfl⟩
  rw [← hs₁.rest, hinside]
  refine .plain _ ?_
  rw [String.toList_ofList, hout, hink]
  rfl

theorem fetched_fetchLabel {token : String → Token} {c : Char}
    (h : s.fetchWord (fun cur => (Token.readLabel cur).map fun (l, cur) => (token l, cur)) =
      some s')
    (hpeek : s.cursor.peek = some c)
    (htoken : ∀ l b, (token l).Written (c :: (l.toList ++ b)) b) : Fetched s s' := by
  refine fetched_fetchWord h fun cur t next hcur hread => ?_
  obtain ⟨⟨label, last⟩, hlabel, ⟨⟩⟩ := Option.map_eq_some_iff.mp hread
  rw [Cursor.rest_after hpeek hcur, Token.readLabel_eq hlabel]
  exact htoken label next.rest

theorem fetched_fetchTag {inFlow : Bool} (h : s.fetchWord (Token.readTag inFlow) = some s')
    (hpeek : s.cursor.peek = some '!') : Fetched s s' := by
  refine fetched_fetchWord h fun cur t next hcur hread => ?_
  obtain ⟨⟨handle, suffix, rfl⟩, word, hrest, hword⟩ := Token.passes_readTag hread
  rw [Cursor.rest_after hpeek hcur, hrest]
  exact .tag next.rest hword

theorem written_separator {cur : Cursor} {c : Char} (h : cur.atSeparator)
    (hpeek : cur.peek = some c) :
    (if c == '-' then Token.documentStart else .documentEnd).Written cur.rest
      (cur.rest.drop 3) := by
  simp only [Cursor.atSeparator, Cursor.startsWith, Cursor.ahead, Bool.and_eq_true,
    Bool.or_eq_true, List.isPrefixOf_iff_prefix] at h
  obtain ⟨⟨-, ⟨b, hb⟩ | ⟨b, hb⟩⟩, hend⟩ := h
  · have hrest : cur.rest = '-' :: '-' :: '-' :: b := hb.symm
    rw [hrest] at hend ⊢
    obtain rfl : '-' = c := by simpa [Cursor.peek, hrest] using hpeek
    exact .documentStart (by simpa [List.head?_eq_getElem?] using hend)
  · have hrest : cur.rest = '.' :: '.' :: '.' :: b := hb.symm
    rw [hrest] at hend ⊢
    obtain rfl : '.' = c := by simpa [Cursor.peek, hrest] using hpeek
    exact .documentEnd (by simpa [List.head?_eq_getElem?] using hend)

theorem fetched_fetchAt (h : s.fetchAt = some s') (hwhole : s.cursor.rest = [] → s.whole) :
    Fetched s s' := by
  unfold fetchAt at h
  dsimp only at h
  cases hpeek : s.cursor.peek with
  | none =>
    rw [hpeek] at h
    have hnil := List.head?_eq_none_iff.mp hpeek
    exact fetched_fetchEnd h hnil (hwhole hnil)
  | some c =>
    rw [hpeek] at h
    dsimp only at h
    have hmark {d : Char} (hd : c == d) : s.cursor.peek = some d := beq_iff_eq.mp hd ▸ hpeek
    have hmark' {d : Char} {p : Bool} (hd : c == d && p) : s.cursor.peek = some d :=
      hmark (Bool.and_eq_true_iff.mp hd).1
    rcases ite_eq_iff.mp h with ⟨hc, h⟩ | ⟨-, h⟩
    · exact fetched_fetchDirective h (hmark (Bool.and_eq_true_iff.mp hc).2)
    rcases ite_eq_iff.mp h with ⟨hc, h⟩ | ⟨-, h⟩
    · exact fetched_fetchSeparator h (written_separator hc hpeek)
    rcases ite_eq_iff.mp h with ⟨hc, h⟩ | ⟨-, h⟩
    · exact fetched_fetchOpen h (hmark hc) rfl
    rcases ite_eq_iff.mp h with ⟨hc, h⟩ | ⟨-, h⟩
    · exact fetched_fetchOpen h (hmark hc) rfl
    rcases ite_eq_iff.mp h with ⟨hc, h⟩ | ⟨-, h⟩
    · exact fetched_fetchClose h (hmark hc) rfl
    rcases ite_eq_iff.mp h with ⟨hc, h⟩ | ⟨-, h⟩
    · exact fetched_fetchClose h (hmark hc) rfl
    rcases ite_eq_iff.mp h with ⟨hc, h⟩ | ⟨-, h⟩
    · exact fetched_fetchFlowEntry h (hmark hc)
    rcases ite_eq_iff.mp h with ⟨hc, h⟩ | ⟨-, h⟩
    · exact fetched_fetchBlockEntry h (hmark' hc)
    rcases ite_eq_iff.mp h with ⟨hc, h⟩ | ⟨-, h⟩
    · exact fetched_fetchKey h (hmark' hc)
    rcases ite_eq_iff.mp h with ⟨hc, h⟩ | ⟨-, h⟩
    · exact fetched_fetchValue h (hmark' hc)
    rcases ite_eq_iff.mp h with ⟨hc, h⟩ | ⟨-, h⟩
    · exact fetched_fetchLabel h (hmark hc) .aliasOf
    rcases ite_eq_iff.mp h with ⟨hc, h⟩ | ⟨-, h⟩
    · exact fetched_fetchLabel h (hmark hc) .anchor
    rcases ite_eq_iff.mp h with ⟨hc, h⟩ | ⟨-, h⟩
    · exact fetched_fetchTag h (hmark hc)
    rcases ite_eq_iff.mp h with ⟨hc, h⟩ | ⟨-, h⟩
    · exact fetched_fetchBlock h (hmark' hc) (.inl rfl)
    rcases ite_eq_iff.mp h with ⟨hc, h⟩ | ⟨-, h⟩
    · exact fetched_fetchBlock h (hmark' hc) (.inr rfl)
    rcases ite_eq_iff.mp h with ⟨hc, h⟩ | ⟨-, h⟩
    · exact fetched_fetchQuoted h hpeek (beq_iff_eq.mp hc)
    rcases ite_eq_iff.mp h with ⟨hc, h⟩ | ⟨-, h⟩
    · exact fetched_fetchQuoted h (hmark hc) rfl
    rcases ite_eq_iff.mp h with ⟨-, h⟩ | ⟨-, h⟩
    · exact fetched_fetchPlain h
    · cases h

/-! ### Taking tokens -/

/-- The queue and the characters still to be read are this text. -/
def Holds (s : Stream) (a : List Char) : Prop := Spelled s.whole s.queue a s.cursor.rest

/-- Tokens may have been found, and none was taken. -/
structure Extends (s s' : Stream) : Prop where
  taken : s'.taken = s.taken
  whole : s'.whole = s.whole
  holds {a : List Char} : s.Holds a → s'.Holds a

theorem Extends.trans (h : Extends s s₁) (h' : Extends s₁ s') : Extends s s' :=
  ⟨h'.taken.trans h.taken, h'.whole.trans h.whole, h'.holds ∘ h.holds⟩

theorem Padded.extends (h : Padded s s') : Extends s s' := by
  refine ⟨h.taken, h.whole, fun hs => ?_⟩
  rw [Holds, h.rest, h.whole]
  exact h.queue hs

theorem canSee_eq_some {k : ℕ} (h : s.canSee k = some s') :
    s' = s ∧ (s.cursor.rest.length < k → s.whole) := by
  unfold canSee at h
  split at h
  · next hsee =>
    cases h
    refine ⟨rfl, fun hlt => ?_⟩
    simp only [Bool.or_eq_true, decide_eq_true_eq] at hsee
    exact hsee.resolve_right (by omega)
  · cases h

theorem extends_fetch (h : s.fetch = some s') : Extends s s' := by
  simp only [fetch] at h
  obtain ⟨s₁, hstale, h⟩ := Option.bind_eq_some_iff.mp h
  obtain ⟨s₂, hsee, h⟩ := Option.bind_eq_some_iff.mp h
  obtain ⟨s₃, hat, h⟩ := Option.bind_eq_some_iff.mp h
  obtain ⟨rfl, -⟩ := canSee_eq_some h
  obtain ⟨rfl, hwhole⟩ := canSee_eq_some hsee
  have hpad := (padded_dropStale hstale).trans (padded_dedentTo s₁ (s₁.cursor.column + 1))
  have hfetch := fetched_fetchAt hat fun hnil => hwhole (by simp [hnil])
  refine ⟨hfetch.taken.trans hpad.taken, hfetch.whole.trans hpad.whole, fun hs => ?_⟩
  rw [Holds, hfetch.whole]
  refine hfetch.queue (b := s.cursor.rest) ?_ ?_
  · rw [hpad.whole]
    exact hpad.queue hs
  · rw [hpad.rest]
    exact s.filler_skipToToken _ _ _

theorem extends_ensure {fuel : ℕ} (h : ensure fuel s = some s') : Extends s s' := by
  induction fuel generalizing s with
  | zero => cases h
  | succ fuel ih =>
    unfold ensure at h
    split at h
    · obtain ⟨s₁, hfetch, h⟩ := Option.bind_eq_some_iff.mp h
      exact (extends_fetch hfetch).trans (ih h)
    · split at h
      · cases h
      · next s₁ hstale =>
        have hs₁ := (padded_dropStale hstale).extends
        split at h
        · obtain ⟨s₂, hfetch, h⟩ := Option.bind_eq_some_iff.mp h
          exact hs₁.trans ((extends_fetch hfetch).trans (ih h))
        · cases h
          exact hs₁

theorem extends_peek {t : Token} (h : s.peek = some (t, s')) :
    Extends s s' ∧ s'.queue.head? = some t := by
  obtain ⟨s₁, hensure, h⟩ := Option.bind_eq_some_iff.mp h
  obtain ⟨t', ht, ⟨⟩⟩ := Option.bind_eq_some_iff.mp h
  exact ⟨extends_ensure hensure, ht⟩

/-- The tokens taken so far are the first part of the original text, and the stream holds the
rest. -/
def Reached (s origin : Stream) : Prop :=
  s.whole = origin.whole ∧ ∃ ts a, Spelled s.whole ts origin.cursor.rest a ∧
    ts.length = s.taken ∧ s.Holds a

variable {origin : Stream}

theorem Reached.extends (h : s.Reached origin) (h' : Extends s s') : s'.Reached origin := by
  obtain ⟨hwhole, ts, a, hts, htaken, ha⟩ := h
  exact ⟨h'.whole.trans hwhole, ts, a, h'.whole ▸ hts, htaken.trans h'.taken.symm, h'.holds ha⟩

theorem Reached.drop (h : s.Reached origin) {t : Token} (ht : s.queue.head? = some t) :
    s.drop.Reached origin := by
  obtain ⟨hwhole, ts, a, hts, htaken, ha⟩ := h
  obtain ⟨tail, hqueue⟩ := List.head?_eq_some_iff.mp ht
  rw [Holds, hqueue, ← List.singleton_append] at ha
  obtain ⟨b, hfirst, hrest⟩ := ha.split
  refine ⟨hwhole, ts ++ [t], b, hts.append hfirst, by simp [Stream.drop, htaken], ?_⟩
  simpa [Holds, Stream.drop, hqueue] using hrest

/-- A stream after a look at its first token, and after taking it. -/
theorem Reached.peek (h : s.Reached origin) {t : Token} (ht : s.peek = some (t, s')) :
    s'.Reached origin ∧ s'.drop.Reached origin := by
  obtain ⟨hextends, hhead⟩ := extends_peek ht
  exact ⟨h.extends hextends, (h.extends hextends).drop hhead⟩

/-- A text that can be read to its end is read as it is. -/
theorem readable_eq {room : ℕ} {piece text rest : List Char}
    (h : readable room piece text = (rest, true)) : rest = piece.reverse ++ text := by
  induction text generalizing room piece rest with
  | nil =>
    cases h
    rw [List.append_nil]
  | cons c text ih =>
    simp only [readable] at h
    split at h
    · split at h
      · rw [ih h, List.reverse_cons, List.append_assoc, List.singleton_append]
      · cases h
    · split at h
      · cases hlater : readable (pieceSize - c.utf8Size) [c] text with
        | mk later whole =>
          rw [hlater] at h
          cases h
          rw [ih hlater]
          rfl
      · cases h

theorem reached_ofChars (text : List Char) : (ofChars text).Reached (ofChars text) :=
  ⟨rfl, [], _, .nil _, rfl, .nil _⟩

theorem rest_ofChars {text : List Char} (h : (ofChars text).whole) :
    (ofChars text).cursor.rest = text := by
  have hread : readable pieceSize [] text = ((ofChars text).cursor.rest, true) := Prod.ext rfl h
  exact readable_eq hread

end Stream

end TreeSchema.Document.Yaml
