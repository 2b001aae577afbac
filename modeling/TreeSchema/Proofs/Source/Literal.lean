import TreeSchema.Gate
import TreeSchema.Text.Quoted
import Mathlib.Data.List.Infix
import Mathlib.Tactic.ByContra

/-!
# What a condition means

A compiler does not take the feature of a condition from between two quotes. It reads a string
literal there, in which a backslash starts an escape. So the attribute of a gate means the gate only
if there is no backslash in its feature.
-/

namespace TreeSchema

namespace Source

/-! ### String literals -/

/-- What stands between braces after `\u`: up to six digits that name a character, with underscores
anywhere but at the start. The second result is the number of characters up to the brace. -/
def codePoint? (cs : List Char) : Option (Char × ℕ) :=
  let body := cs.takeWhile (· != '\x7d')
  let digits := body.filter (· != '_')
  if body.length == cs.length || body.head? == some '_' || digits.isEmpty || digits.length > 6 then
    none
  else
    match Text.hexNumber? digits with
    | none => none
    | some n => if n.isValidChar then some (Char.ofNat n, body.length) else none

/-- What stands after a backslash: the text that it means, and how many characters it takes. A line
break means nothing, and neither do the blanks after it. -/
def escape? : List Char → Option (List Char × ℕ)
  | 'n' :: _ => some (['\n'], 1)
  | 'r' :: _ => some (['\r'], 1)
  | 't' :: _ => some (['\t'], 1)
  | '0' :: _ => some (['\x00'], 1)
  | '\\' :: _ => some (['\\'], 1)
  | '"' :: _ => some (['"'], 1)
  | '\x27' :: _ => some (['\x27'], 1)
  | 'x' :: a :: b :: _ =>
    match Text.hexNumber? [a, b] with
    | none => none
    | some n => if n < 128 then some ([Char.ofNat n], 3) else none
  | 'u' :: '\x7b' :: rest => (codePoint? rest).map fun c => ([c.1], c.2 + 3)
  | '\n' :: rest => some ([], (rest.takeWhile [' ', '\n', '\t', '\r'].contains).length + 1)
  | _ => none

/-- The text of a literal whose opening quote has been read, and what follows its closing quote.
The number counts the characters that belong to an escape. -/
def literal? : ℕ → List Char → Option (List Char × List Char)
  | _, [] => none
  | n + 1, _ :: rest => literal? n rest
  | 0, c :: rest =>
    if c = '"' then some ([], rest)
    else if c = '\\' then
      match escape? rest with
      | none => none
      | some (text, n) => (literal? n rest).map fun r => (text ++ r.1, r.2)
    else if c = '\r' then none
    else (literal? 0 rest).map fun r => (c :: r.1, r.2)

theorem escape?_width {cs text : List Char} {n : ℕ} (h : escape? cs = some (text, n)) :
    text.length ≤ 1 ∧ 1 ≤ n := by
  unfold escape? at h
  split at h
  case h_8 =>
    split at h
    · cases h
    · split at h <;> cases h
      simp
  case h_9 =>
    obtain ⟨c, -, hc⟩ := Option.map_eq_some_iff.mp h
    cases hc
    simp
  case h_11 => cases h
  all_goals
    cases h
    simp

/-- A literal ends, or it goes on with an escape or with another character. -/
theorem literal?_cases {c : Char} {cs text rest : List Char}
    (h : literal? 0 (c :: cs) = some (text, rest)) :
    (c = '"' ∧ text = [] ∧ rest = cs) ∨
    (c = '\\' ∧ ∃ e n t, escape? cs = some (e, n) ∧ literal? n cs = some (t, rest) ∧
      text = e ++ t) ∨
    (c ≠ '\\' ∧ ∃ t, literal? 0 cs = some (t, rest) ∧ text = c :: t) := by
  simp only [literal?] at h
  split at h
  · next hc =>
    cases h
    exact .inl ⟨hc, rfl, rfl⟩
  · split at h
    · next hc =>
      split at h
      · cases h
      · next e n he =>
        obtain ⟨⟨t, r⟩, hr, heq⟩ := Option.map_eq_some_iff.mp h
        cases heq
        exact .inr (.inl ⟨hc, e, n, t, he, hr, rfl⟩)
    · next hc =>
      split at h
      · cases h
      · obtain ⟨⟨t, r⟩, hr, heq⟩ := Option.map_eq_some_iff.mp h
        cases heq
        exact .inr (.inr ⟨hc, t, hr, rfl⟩)

theorem literal?_suffix {n : ℕ} {cs text rest : List Char} (h : literal? n cs = some (text, rest)) :
    rest <:+ cs := by
  induction cs generalizing n text with
  | nil => simp [literal?] at h
  | cons c cs ih =>
    cases n with
    | succ n => exact (ih h).trans (List.suffix_cons c cs)
    | zero =>
      obtain ⟨-, -, rfl⟩ | ⟨-, e, n, t, -, ht, -⟩ | ⟨-, t, ht, -⟩ := literal?_cases h
      · exact List.suffix_cons c rest
      · exact (ih ht).trans (List.suffix_cons c cs)
      · exact (ih ht).trans (List.suffix_cons c cs)

theorem length_literal? {n : ℕ} {cs text rest : List Char}
    (h : literal? n cs = some (text, rest)) : text.length + rest.length + n < cs.length := by
  induction cs generalizing n text with
  | nil => simp [literal?] at h
  | cons c cs ih =>
    rw [List.length_cons]
    cases n with
    | succ n =>
      have hlt := ih h
      omega
    | zero =>
      obtain ⟨-, rfl, rfl⟩ | ⟨-, e, n, t, he, ht, rfl⟩ | ⟨-, t, ht, rfl⟩ := literal?_cases h
      · simp
      · have hlt := ih ht
        have hwidth := escape?_width he
        rw [List.length_append]
        omega
      · have hlt := ih ht
        rw [List.length_cons]
        omega

/-- A literal means what is written in it, or less: an escape takes more characters than it
means. -/
theorem literal?_verbatim {cs text rest : List Char} (h : literal? 0 cs = some (text, rest)) :
    (cs = text ++ '"' :: rest ∧ '\\' ∉ text) ∨ text.length + rest.length + 1 < cs.length := by
  induction cs generalizing text with
  | nil => simp [literal?] at h
  | cons c cs ih =>
    rw [List.length_cons]
    obtain ⟨rfl, rfl, rfl⟩ | ⟨-, e, n, t, he, ht, rfl⟩ | ⟨hc, t, ht, rfl⟩ := literal?_cases h
    · exact .inl ⟨rfl, by simp⟩
    · have hlt := length_literal? ht
      have hwidth := escape?_width he
      rw [List.length_append]
      exact .inr (by omega)
    · rcases ih ht with ⟨rfl, hslash⟩ | hlt
      · exact .inl ⟨rfl, by simp [hc.symm, hslash]⟩
      · rw [List.length_cons]
        exact .inr (by omega)

/-- Without quotes, backslashes and carriage returns, a text is what its literal means. -/
theorem literal?_append {text : List Char} (h : ∀ c ∈ text, c ≠ '"' ∧ c ≠ '\\' ∧ c ≠ '\r')
    (rest : List Char) : literal? 0 (text ++ '"' :: rest) = some (text, rest) := by
  induction text with
  | nil => rfl
  | cons c text ih =>
    obtain ⟨⟨hquote, hslash, hreturn⟩, htext⟩ := List.forall_mem_cons.mp h
    rw [List.cons_append, literal?, if_neg hquote, if_neg hslash, if_neg hreturn, ih htext]
    rfl

/-! ### Conditions -/

/-- The condition of an attribute. -/
inductive Cfg where
  | feature (name : String)
  | not (condition : Cfg)
  deriving DecidableEq

def Cfg.holds (v : Gate.Valuation) : Cfg → Bool
  | feature name => v name
  | not condition => !condition.holds v

/-- A condition, and what follows it. -/
def cfg? : List Char → Option (Cfg × List Char)
  | 'n' :: 'o' :: 't' :: '(' :: rest =>
    match cfg? rest with
    | some (condition, ')' :: rest) => some (.not condition, rest)
    | _ => none
  | cs =>
    match "feature = \"".toList.isPrefixOf? cs with
    | none => none
    | some rest => (literal? 0 rest).map fun r => (.feature (String.ofList r.1), r.2)

/-- The condition that an attribute asks for. -/
def attribute? (text : String) : Option Cfg :=
  match "#[cfg(".toList.isPrefixOf? text.toList with
  | none => none
  | some rest =>
    match cfg? rest with
    | some (condition, [')', ']']) => some condition
    | _ => none

/-- The attribute can be read and lets its item through. -/
def satisfied (v : Gate.Valuation) (text : String) : Bool := (attribute? text).any (Cfg.holds v)

theorem cfg?_suffix (cs : List Char) {rest : List Char} {c : Cfg} (h : cfg? cs = some (c, rest)) :
    rest <:+ cs := by
  fun_induction cfg? cs generalizing c rest with
  | case1 cs condition rest' hcs ih =>
    cases h
    exact ((List.suffix_cons _ _).trans (ih hcs)).trans (List.suffix_append ['n', 'o', 't', '('] cs)
  | case2 => cases h
  | case3 => cases h
  | case4 cs _ start hstart =>
    obtain ⟨⟨text, r⟩, hr, heq⟩ := Option.map_eq_some_iff.mp h
    cases heq
    rw [← List.isPrefixOf?_eq_some_iff_append_eq.mp hstart]
    exact (literal?_suffix hr).trans (List.suffix_append _ _)

/-- An attribute starts and ends like one. -/
theorem eq_of_attribute?_eq_some {text : String} {c : Cfg} (h : attribute? text = some c) :
    ∃ cs, text.toList = "#[cfg(".toList ++ cs ∧ [')', ']'] <:+ cs := by
  unfold attribute? at h
  split at h
  · cases h
  · next cs hcs =>
    refine ⟨cs, (List.isPrefixOf?_eq_some_iff_append_eq.mp hcs).symm, ?_⟩
    split at h
    · next d hd => exact cfg?_suffix cs hd
    · cases h

theorem cfg?_feature {cs rest : List Char} {c : Cfg} :
    cfg? ("feature = \"".toList ++ cs) = some (c, rest) ↔
      ∃ text, literal? 0 cs = some (text, rest) ∧ c = .feature (String.ofList text) := by
  have hstart : "feature = \"".toList.isPrefixOf? ("feature = \"".toList ++ cs) = some cs :=
    List.isPrefixOf?_eq_some_iff_append_eq.mpr rfl
  unfold cfg?
  split
  · next heq => cases heq
  · rw [hstart]
    constructor
    · intro h
      obtain ⟨⟨text, r⟩, hr, heq⟩ := Option.map_eq_some_iff.mp h
      cases heq
      exact ⟨text, hr, rfl⟩
    · rintro ⟨text, htext, rfl⟩
      exact Option.map_eq_some_iff.mpr ⟨_, htext, rfl⟩

theorem cfg?_not {cs rest : List Char} {c : Cfg} :
    cfg? ('n' :: 'o' :: 't' :: '(' :: cs) = some (c, rest) ↔
      ∃ d, cfg? cs = some (d, ')' :: rest) ∧ c = .not d := by
  rw [cfg?]
  split
  · next d r hd => simp [hd, eq_comm, and_comm]
  · next hne =>
    simp only [reduceCtorEq, false_iff, not_exists, not_and]
    intro d hd
    exact absurd hd (hne d rest)

theorem attribute?_of_toList {text : String} {cs : List Char} {c : Cfg}
    (h : text.toList = "#[cfg(".toList ++ cs) :
    attribute? text = some c ↔ cfg? cs = some (c, [')', ']']) := by
  have hstart : "#[cfg(".toList.isPrefixOf? text.toList = some cs :=
    List.isPrefixOf?_eq_some_iff_append_eq.mpr h.symm
  unfold attribute?
  rw [hstart]
  dsimp only
  split
  · next d hd => simp [hd]
  · next hne =>
    simp only [reduceCtorEq, false_iff]
    exact hne c

end Source

namespace Gate

open Source

/-- The condition that a gate stands for. -/
def condition (g : Gate) : Cfg :=
  if g.negated then .not (.feature g.feature) else .feature g.feature

theorem holds_condition (v : Valuation) (g : Gate) : g.condition.holds v = g.holds v := by
  obtain ⟨feature, negated⟩ := g
  cases negated <;> simp [condition, Cfg.holds, holds]

/-- What the attribute of a gate asks for, if it can be read. -/
def meaning (g : Gate) : Option Cfg := attribute? g.cfgAttribute

/-- What stands after the feature in the attribute of a gate. -/
def ending (g : Gate) : List Char := if g.negated then [')', ')', ']'] else [')', ']']

/-- The attribute of a gate is read as a condition of the same form, on whatever feature the literal
in it means. -/
theorem attribute?_eq_some_iff {g : Gate} {c : Cfg} : attribute? g.cfgAttribute = some c ↔
    ∃ text, literal? 0 (g.feature.toList ++ '"' :: g.ending) = some (text, g.ending) ∧
      c = condition { g with feature := String.ofList text } := by
  obtain ⟨feature, negated⟩ := g
  cases negated with
  | false =>
    have htext : (cfgAttribute ⟨feature, false⟩).toList = "#[cfg(".toList ++
        ("feature = \"".toList ++ (feature.toList ++ '"' :: ending ⟨feature, false⟩)) := by
      simp [cfgAttribute, ending]
    rw [attribute?_of_toList htext, cfg?_feature]
    rfl
  | true =>
    have htext : (cfgAttribute ⟨feature, true⟩).toList = "#[cfg(".toList ++
        ('n' :: 'o' :: 't' :: '(' :: ("feature = \"".toList ++
          (feature.toList ++ '"' :: ending ⟨feature, true⟩))) := by
      simp [cfgAttribute, ending]
    simp only [attribute?_of_toList htext, cfg?_not, cfg?_feature]
    constructor
    · rintro ⟨_, ⟨text, hliteral, rfl⟩, rfl⟩
      exact ⟨text, hliteral, rfl⟩
    · rintro ⟨text, hliteral, rfl⟩
      exact ⟨_, ⟨text, hliteral, rfl⟩, rfl⟩

example : attribute? (cfgAttribute ⟨"a\\u\x7b62\x7d", true⟩) = some (.not (.feature "ab")) := by
  decide

theorem condition_inj {g h : Gate} (heq : g.condition = h.condition) : g = h := by
  obtain ⟨feature, negated⟩ := g
  obtain ⟨feature', negated'⟩ := h
  cases negated <;> cases negated' <;> simp_all [condition]

/-- An attribute is read back as its gate exactly if the feature has no backslash. -/
theorem attribute?_eq_condition_iff {g : Gate} (hg : isFeature g.feature.toList = true) :
    attribute? g.cfgAttribute = some g.condition ↔ '\\' ∉ g.feature.toList := by
  rw [attribute?_eq_some_iff]
  constructor
  · rintro ⟨text, hliteral, hcondition⟩
    have htext : g.feature = String.ofList text := congrArg feature (condition_inj hcondition)
    have hchars : g.feature.toList = text := by rw [htext, String.toList_ofList]
    rw [hchars] at hliteral ⊢
    rcases literal?_verbatim hliteral with ⟨-, hslash⟩ | hlt
    · exact hslash
    · simp only [List.length_append, List.length_cons] at hlt
      omega
  · intro hslash
    refine ⟨g.feature.toList, literal?_append (fun c hc => ?_) g.ending,
      by rw [String.ofList_toList]⟩
    have hchar := List.all_eq_true.mp (Bool.and_eq_true_iff.mp hg).2 c hc
    obtain ⟨hquote, hblank⟩ : c ≠ '"' ∧ Text.isBlank c = false := by simpa using hchar
    refine ⟨hquote, fun h => hslash (h ▸ hc), ?_⟩
    rintro rfl
    exact absurd hblank (by decide)

/-- An attribute that can be read and is true with the gate is read back as the gate. -/
theorem attribute?_eq_condition_iff_holds {g : Gate} :
    attribute? g.cfgAttribute = some g.condition ↔
      ∀ v, (attribute? g.cfgAttribute).map (Cfg.holds v) = some (g.holds v) := by
  constructor
  · intro h v
    rw [h, Option.map_some, holds_condition]
  · intro h
    obtain ⟨c, hc, hholds⟩ := Option.map_eq_some_iff.mp (h (· == g.feature))
    obtain ⟨text, -, rfl⟩ := attribute?_eq_some_iff.mp hc
    rw [holds_condition] at hholds
    have htext : String.ofList text = g.feature := by
      by_contra hne
      simp [holds, beq_eq_false_iff_ne.mpr hne] at hholds
    rw [hc, htext]

/-! ### Deciding a gate -/

/-- A gate, if there is one, that asks for a feature. -/
def Asks (gate : Option Gate) : Prop := ∀ g ∈ gate, isFeature g.feature.toList = true

/-- A gate, if there is one, whose feature stands in its attribute as it is. -/
def Verbatim (gate : Option Gate) : Prop := ∀ g ∈ gate, '\\' ∉ g.feature.toList

/-- Once the features are decided, what stands under the gate is still there: the attribute is true,
or it cannot be read. -/
def keeps (v : Valuation) (gate : Option Gate) : Bool :=
  gate.all fun g => g.meaning.all (Cfg.holds v)

/-- What is left of a gate then: its attribute stays if it cannot be read. -/
def unread (gate : Option Gate) : Option Gate := gate.filter fun g => g.meaning.isNone

variable {gate : Option Gate}

theorem meaning_eq (ha : Asks gate) (hv : Verbatim gate) {g : Gate} (hg : g ∈ gate) :
    g.meaning = some g.condition := (attribute?_eq_condition_iff (ha g hg)).mpr (hv g hg)

theorem keeps_eq_allows (ha : Asks gate) (hv : Verbatim gate) (v : Valuation) :
    keeps v gate = allows v gate := by
  cases gate with
  | none => rfl
  | some g =>
    have hmeaning := meaning_eq ha hv (Option.mem_some_self g)
    simp [keeps, allows, hmeaning, holds_condition]

theorem unread_eq_none (ha : Asks gate) (hv : Verbatim gate) : unread gate = none := by
  cases gate with
  | none => rfl
  | some g =>
    have hmeaning := meaning_eq ha hv (Option.mem_some_self g)
    simp [unread, Option.filter, hmeaning]

end Gate

end TreeSchema
