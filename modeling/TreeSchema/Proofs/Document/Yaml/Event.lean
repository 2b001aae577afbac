import TreeSchema.Document.Yaml.Reading
import TreeSchema.Proofs.Document.Yaml.Stream

/-!
# The end of a document

The tokens of a document are taken from its text one after the other, and a text is well formed
only if nothing but white space, comments and ends of documents follows the last of them.
-/

namespace TreeSchema.Document.Yaml

namespace Event

variable {origin s s' : Stream} {st : Step} {handles : Handles}

/-! ### The steps of a document -/

theorem reached_readProperties {anchor : Option String} {tag : Option (String × Tag)} {t : Token}
    (h : readProperties s = some (anchor, tag, t, s')) (hs : s.Reached origin) :
    s'.Reached origin ∧ s'.drop.Reached origin := by
  obtain ⟨⟨first, s₁⟩, hfirst, h⟩ := Option.bind_eq_some_iff.mp h
  have hs₁ := hs.peek hfirst
  dsimp only at h
  split at h
  · obtain ⟨⟨second, s₂⟩, hsecond, h⟩ := Option.bind_eq_some_iff.mp h
    have hs₂ := hs₁.2.peek hsecond
    dsimp only at h
    split at h
    · obtain ⟨⟨third, s₃⟩, hthird, ⟨⟩⟩ := Option.bind_eq_some_iff.mp h
      exact hs₂.2.peek hthird
    · cases h
      exact hs₂
  · obtain ⟨⟨second, s₂⟩, hsecond, h⟩ := Option.bind_eq_some_iff.mp h
    have hs₂ := hs₁.2.peek hsecond
    dsimp only at h
    split at h
    · obtain ⟨⟨third, s₃⟩, hthird, ⟨⟩⟩ := Option.bind_eq_some_iff.mp h
      exact hs₂.2.peek hthird
    · cases h
      exact hs₂
  · cases h
    exact hs₁

theorem reached_unwritten {anchor : Option String} {tag : Option Tag}
    (h : node.unwritten anchor tag s = some st) (hs : s.Reached origin) :
    st.stream.Reached origin := by
  unfold node.unwritten at h
  split at h
  · cases h
    exact hs
  · cases h

theorem reached_node {block ofKey : Bool} (h : node handles block ofKey s = some st)
    (hs : s.Reached origin) : st.stream.Reached origin := by
  obtain ⟨⟨first, s₁⟩, hfirst, h⟩ := Option.bind_eq_some_iff.mp h
  have hs₁ := hs.peek hfirst
  dsimp only at h
  split at h
  · cases h
    exact hs₁.2
  · obtain ⟨⟨anchor, properties, t, s₂⟩, hproperties, h⟩ := Option.bind_eq_some_iff.mp h
    have hs₂ := reached_readProperties hproperties hs₁.1
    obtain ⟨tag, -, h⟩ := Option.bind_eq_some_iff.mp h
    dsimp only at h
    split at h
    · split at h
      · cases h
        exact hs₂.1
      · exact reached_unwritten h hs₂.1
    · cases h
      exact hs₂.2
    · cases h
      exact hs₂.2
    · cases h
      exact hs₂.2
    · split at h
      · cases h
        exact hs₂.2
      · exact reached_unwritten h hs₂.1
    · split at h
      · cases h
        exact hs₂.2
      · exact reached_unwritten h hs₂.1
    · exact reached_unwritten h hs₂.1

theorem reached_nodeUnless {ends : List Token} {block ofKey : Bool} {after : List Goal}
    (h : nodeUnless ends block ofKey after s = some st) (hs : s.Reached origin) :
    st.stream.Reached origin := by
  obtain ⟨⟨t, s₁⟩, ht, h⟩ := Option.bind_eq_some_iff.mp h
  have hs₁ := hs.peek ht
  dsimp only at h
  split at h
  · cases h
    exact hs₁.1
  · cases h
    exact hs₁.1

theorem reached_flowEntry (h : flowEntry s = some st) (hs : s.Reached origin) :
    st.stream.Reached origin := by
  obtain ⟨⟨t, s₁⟩, ht, h⟩ := Option.bind_eq_some_iff.mp h
  have hs₁ := hs.peek ht
  dsimp only at h
  split at h
  · cases h
    exact hs₁.2
  · cases h
    exact hs₁.2
  · cases h
    exact hs₁.1

theorem reached_flowKey (h : flowKey s = some st) (hs : s.Reached origin) :
    st.stream.Reached origin := by
  obtain ⟨⟨t, s₁⟩, ht, h⟩ := Option.bind_eq_some_iff.mp h
  have hs₁ := hs.peek ht
  dsimp only at h
  split at h
  · cases h
    exact hs₁.2
  · exact reached_nodeUnless h hs₁.2
  · cases h
    exact hs₁.1

theorem reached_flowItem {first : Bool} {close : Token} {item : Stream → Option Step}
    (h : flowItem first close item s = some st) (hs : s.Reached origin)
    (hitem : ∀ s, item s = some st → s.Reached origin → st.stream.Reached origin) :
    st.stream.Reached origin := by
  obtain ⟨⟨t, s₁⟩, ht, h⟩ := Option.bind_eq_some_iff.mp h
  have hs₁ := hs.peek ht
  dsimp only at h
  split at h
  · exact hitem _ h hs₁.1
  · split at h
    · exact hitem _ h hs₁.2
    · cases h

theorem reached_content (h : step handles .content s = some st) (hs : s.Reached origin) :
    st.stream.Reached origin := by
  obtain ⟨⟨t, s₁⟩, ht, h⟩ := Option.bind_eq_some_iff.mp h
  dsimp only at h
  split at h <;> cases h <;> exact (hs.peek ht).1

theorem reached_blockEntries (h : step handles .blockEntries s = some st) (hs : s.Reached origin) :
    st.stream.Reached origin := by
  obtain ⟨⟨t, s₁⟩, ht, h⟩ := Option.bind_eq_some_iff.mp h
  have hs₁ := hs.peek ht
  dsimp only at h
  split at h
  · exact reached_nodeUnless h hs₁.2
  · cases h
    exact hs₁.2
  · cases h

theorem reached_keyEntries (h : step handles .keyEntries s = some st) (hs : s.Reached origin) :
    st.stream.Reached origin := by
  obtain ⟨⟨t, s₁⟩, ht, h⟩ := Option.bind_eq_some_iff.mp h
  have hs₁ := hs.peek ht
  dsimp only at h
  split at h
  · exact reached_nodeUnless h hs₁.2
  · cases h
    exact hs₁.1

theorem reached_blockKeys (h : step handles .blockKeys s = some st) (hs : s.Reached origin) :
    st.stream.Reached origin := by
  obtain ⟨⟨t, s₁⟩, ht, h⟩ := Option.bind_eq_some_iff.mp h
  have hs₁ := hs.peek ht
  dsimp only at h
  split at h
  · exact reached_nodeUnless h hs₁.2
  · cases h
    exact hs₁.2
  · cases h

theorem reached_blockValue (h : step handles .blockValue s = some st) (hs : s.Reached origin) :
    st.stream.Reached origin := by
  obtain ⟨⟨t, s₁⟩, ht, h⟩ := Option.bind_eq_some_iff.mp h
  have hs₁ := hs.peek ht
  dsimp only at h
  split at h
  · exact reached_nodeUnless h hs₁.2
  · cases h
    exact hs₁.1

theorem reached_pairKey (h : step handles .pairKey s = some st) (hs : s.Reached origin) :
    st.stream.Reached origin := by
  obtain ⟨⟨t, s₁⟩, ht, h⟩ := Option.bind_eq_some_iff.mp h
  have hs₁ := hs.peek ht
  dsimp only at h
  split at h
  · cases h
    exact hs₁.2
  · cases h
    exact hs₁.1

theorem reached_pairValue (h : step handles .pairValue s = some st) (hs : s.Reached origin) :
    st.stream.Reached origin := by
  obtain ⟨⟨t, s₁⟩, ht, h⟩ := Option.bind_eq_some_iff.mp h
  have hs₁ := hs.peek ht
  dsimp only at h
  split at h
  · exact reached_nodeUnless h hs₁.2
  · cases h
    exact hs₁.1

theorem reached_pairEnd (h : step handles .pairEnd s = some st) (hs : s.Reached origin) :
    st.stream.Reached origin := by
  obtain ⟨⟨t, s₁⟩, ht, ⟨⟩⟩ := Option.bind_eq_some_iff.mp h
  exact (hs.peek ht).1

theorem reached_flowValue (h : step handles .flowValue s = some st) (hs : s.Reached origin) :
    st.stream.Reached origin := by
  obtain ⟨⟨t, s₁⟩, ht, h⟩ := Option.bind_eq_some_iff.mp h
  have hs₁ := hs.peek ht
  dsimp only at h
  split at h
  · exact reached_nodeUnless h hs₁.2
  · cases h
    exact hs₁.1

theorem reached_flowNoValue (h : step handles .flowNoValue s = some st) (hs : s.Reached origin) :
    st.stream.Reached origin := by
  obtain ⟨⟨t, s₁⟩, ht, ⟨⟩⟩ := Option.bind_eq_some_iff.mp h
  exact (hs.peek ht).1

/-- A step takes tokens only after it has looked at them. -/
theorem reached_step {g : Goal} (h : step handles g s = some st) (hs : s.Reached origin) :
    st.stream.Reached origin := by
  cases g with
  | content => exact reached_content h hs
  | node block ofKey => exact reached_node h hs
  | blockEntries => exact reached_blockEntries h hs
  | keyEntries => exact reached_keyEntries h hs
  | blockKeys => exact reached_blockKeys h hs
  | blockValue => exact reached_blockValue h hs
  | flowEntries first => exact reached_flowItem h hs fun _ => reached_flowEntry
  | pairKey => exact reached_pairKey h hs
  | pairValue => exact reached_pairValue h hs
  | pairEnd => exact reached_pairEnd h hs
  | flowKeys first => exact reached_flowItem h hs fun _ => reached_flowKey
  | flowValue => exact reached_flowValue h hs
  | flowNoValue => exact reached_flowNoValue h hs

theorem reached_run {fuel : ℕ} {goals : List Goal} {events : List Event}
    (h : run handles fuel goals s = (events, some s')) (hs : s.Reached origin) :
    s'.Reached origin := by
  induction fuel generalizing goals s events with
  | zero => cases h
  | succ fuel ih =>
    cases goals with
    | nil =>
      cases h
      exact hs
    | cons g goals =>
      simp only [run] at h
      split at h
      · cases h
      · next st hstep =>
        cases hrest : run handles fuel (st.goals ++ goals) st.stream with
        | mk later rest =>
          rw [hrest] at h
          cases h
          exact ih hrest (reached_step hstep hs)

theorem reached_readDirectives {fuel : ℕ} {versioned : Bool} {handles' : Handles}
    (h : readDirectives fuel versioned handles s = some (handles', s')) (hs : s.Reached origin) :
    s'.Reached origin := by
  induction fuel generalizing versioned handles s with
  | zero => cases h
  | succ fuel ih =>
    obtain ⟨⟨t, s₁⟩, ht, h⟩ := Option.bind_eq_some_iff.mp h
    have hs₁ := hs.peek ht
    dsimp only at h
    split at h
    · split at h
      · cases h
      · exact ih h hs₁.2
    · split at h
      · cases h
      · exact ih h hs₁.2
    · cases h
      exact hs₁.1

/-- The ways to start a document: there is none, it starts after directives, or at once. -/
theorem start_cases {fuel : ℕ} {goal : Option Goal} (h : start fuel s = some (goal, handles, s')) :
    ∃ t s₁, s.peek = some (t, s₁) ∧
      ((t = .streamEnd ∧ s' = s₁) ∨
        (∃ handles' s₂ t' s₃, readDirectives fuel false [] s₁ = some (handles', s₂) ∧
          s₂.peek = some (t', s₃) ∧ goal = some .content ∧ s' = s₃.drop) ∨
        (goal = some (.node true false) ∧ s' = s₁)) := by
  obtain ⟨⟨t, s₁⟩, ht, h⟩ := Option.bind_eq_some_iff.mp h
  refine ⟨t, s₁, ht, ?_⟩
  dsimp only at h
  split at h
  · cases h
    exact .inl ⟨rfl, rfl⟩
  case h_5 =>
    cases h
    exact .inr (.inr ⟨rfl, rfl⟩)
  all_goals
    obtain ⟨⟨handles', s₂⟩, hdirectives, h⟩ := Option.bind_eq_some_iff.mp h
    obtain ⟨⟨t', s₃⟩, ht', h⟩ := Option.bind_eq_some_iff.mp h
    dsimp only at h
    split at h
    · cases h
      exact .inr (.inl ⟨handles', s₂, t', s₃, hdirectives, ht', rfl, rfl⟩)
    · cases h

theorem reached_start {fuel : ℕ} {goal : Option Goal} (h : start fuel s = some (goal, handles, s'))
    (hs : s.Reached origin) : s'.Reached origin := by
  obtain ⟨t, s₁, ht, hcases⟩ := start_cases h
  have hs₁ := (hs.peek ht).1
  obtain ⟨-, rfl⟩ | ⟨_, s₂, t', s₃, hdirectives, ht', -, rfl⟩ | ⟨-, rfl⟩ := hcases
  · exact hs₁
  · exact ((reached_readDirectives hdirectives hs₁).peek ht').2
  · exact hs₁

/-! ### The end of a text -/

/-- Only white space, comments and ends of documents. -/
inductive Trailer : List Char → Prop where
  | filler {a : List Char} (h : Filler a []) : Trailer a
  | documentEnd {a b : List Char} (gap : Filler a ('.' :: '.' :: '.' :: b))
      (hend : endsWord b.head?) (h : Trailer b) : Trailer a

theorem trailer_of_streamEnd {a : List Char} (h : s.queue.head? = some .streamEnd)
    (hs : s.Holds a) : Trailer a ∧ s.whole := by
  obtain ⟨queue, hqueue⟩ := List.head?_eq_some_iff.mp h
  rw [Stream.Holds, hqueue] at hs
  obtain ⟨hwhole, gap⟩ := hs.of_streamEnd
  exact ⟨.filler gap, hwhole⟩

theorem trailer_of_atEnd {fuel : ℕ} {a : List Char} (h : atEnd fuel s) (hs : s.Holds a) :
    Trailer a ∧ s.whole := by
  induction fuel generalizing s a with
  | zero => cases h
  | succ fuel ih =>
    unfold atEnd at h
    split at h
    · next s₁ ht =>
      obtain ⟨hextends, hhead⟩ := Stream.extends_peek ht
      obtain ⟨queue, hqueue⟩ := List.head?_eq_some_iff.mp hhead
      have hs₁ := hextends.holds hs
      rw [Stream.Holds, hqueue] at hs₁
      obtain ⟨b, gap, hend, hb⟩ := hs₁.of_documentEnd
      have hdrop : s₁.drop.Holds b := by simpa [Stream.Holds, Stream.drop, hqueue] using hb
      obtain ⟨htrailer, hwhole⟩ := ih h hdrop
      exact ⟨.documentEnd gap hend htrailer, hextends.whole ▸ hwhole⟩
    · next s₁ ht =>
      obtain ⟨hextends, hhead⟩ := Stream.extends_peek ht
      obtain ⟨htrailer, hwhole⟩ := trailer_of_streamEnd hhead (hextends.holds hs)
      exact ⟨htrailer, hextends.whole ▸ hwhole⟩
    · cases h

/-- The stream after the only document of a text. -/
def afterDocument? (text : List Char) : Option Stream :=
  let fuel := 20 * text.length + 100
  (start fuel (Stream.ofChars text)).bind fun (goal, handles, s) =>
    goal.elim (some s) fun goal => (run handles fuel [goal] s).2

/-- The second text starts where the document of the first one ends: after as many tokens as were
taken for it. -/
def EndsDocument (text tail : List Char) : Prop :=
  ∃ s ts, afterDocument? text = some s ∧ ts.length = s.taken ∧ Spelled true ts text tail

theorem EndsDocument.suffix {text tail : List Char} (h : EndsDocument text tail) :
    tail <:+ text := by
  obtain ⟨_, _, -, -, hspelled⟩ := h
  exact hspelled.suffix

theorem streamEnd_of_start {fuel : ℕ} (h : start fuel s = some (none, handles, s')) :
    s'.queue.head? = some .streamEnd := by
  obtain ⟨t, s₁, ht, ⟨rfl, rfl⟩ | ⟨_, _, _, _, -, -, hgoal, -⟩ | ⟨hgoal, -⟩⟩ := start_cases h
  · exact (Stream.extends_peek ht).2
  · cases hgoal
  · cases hgoal

/-- What follows the document of a well-formed text. -/
theorem trailer_of_ofText {text : List Char} (h : (ofText text).2) :
    ∃ tail, EndsDocument text tail ∧ Trailer tail := by
  have hends {s : Stream} (hafter : afterDocument? text = some s)
      (hs : s.Reached (Stream.ofChars text)) (hend : ∀ a, s.Holds a → Trailer a ∧ s.whole) :
      ∃ tail, EndsDocument text tail ∧ Trailer tail := by
    obtain ⟨hsame, ts, tail, hts, htaken, htail⟩ := hs
    obtain ⟨htrailer, hwhole⟩ := hend tail htail
    rw [Stream.rest_ofChars (hsame ▸ hwhole), hwhole] at hts
    exact ⟨tail, ⟨s, ts, hafter, htaken, hts⟩, htrailer⟩
  simp only [ofText] at h
  split at h
  · cases h
  · next handles s hstart =>
    have hs := reached_start hstart (Stream.reached_ofChars text)
    refine hends (by simp [afterDocument?, hstart]) hs fun a => ?_
    exact trailer_of_streamEnd (streamEnd_of_start hstart)
  · next goal handles s hstart =>
    obtain ⟨s', hrun, hend⟩ := (Option.any_eq_true _ _).mp h
    have hs := reached_start hstart (Stream.reached_ofChars text)
    refine hends (by simpa [afterDocument?, hstart] using hrun) ?_ fun a => trailer_of_atEnd hend
    exact reached_run (Prod.ext rfl hrun) hs

end Event

/-! ### Complete readings -/

theorem Script.fault_of_entries {s : Script} {keep : Bool} {n : ℕ} {p : Script.Place}
    {es : List (String × Tree)} (h : s.entries keep n p = (es, .complete)) :
    s.fault = none := by
  induction n generalizing p es with
  | zero => cases h
  | succ n ih =>
    unfold entries at h
    split at h
    · cases hfault : s.fault with
      | none => rfl
      | some f =>
        rw [hfault] at h
        cases h
    · split at h
      · cases h
      · split at h
        · cases h
        · next q _ =>
          cases hrest : s.entries keep n q with
          | mk later ending =>
            rw [hrest] at h
            cases h
            exact ih hrest

/-- A reading is complete only if the whole text is well formed. -/
theorem wellFormed_of_readKeeping {keep : Bool} {text : List Char}
    {es : List (String × Tree)} (h : readKeeping keep text = .mapping es .complete) :
    (Event.ofText text).2 := by
  have hfault : (Script.ofText text).fault = none := by
    unfold readKeeping at h
    generalize Script.ofText text = s at h ⊢
    dsimp only at h
    split at h
    · cases hfault : s.fault with
      | none => rfl
      | some f =>
        rw [hfault] at h
        cases h
    · cases hentries : s.entries keep (s.items.size + 1) ⟨1, 0⟩ with
      | mk later ending =>
        rw [hentries] at h
        cases h
        exact Script.fault_of_entries hentries
    · split at h
      · cases hfault : s.fault with
        | none => rfl
        | some f =>
          rw [hfault] at h
          cases h
      · split at h <;> cases h
    · cases h
    · cases h
  simp only [Script.ofText] at hfault
  split at hfault
  · next hwell => exact (Bool.and_eq_true_iff.mp hwell).1
  · cases hfault

end TreeSchema.Document.Yaml
