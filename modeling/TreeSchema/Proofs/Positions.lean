import Mathlib.Logic.Function.Iterate
import TreeSchema.Positions
import TreeSchema.Proofs.Schema.Lookup

/-!
# Positions are a least fixed point

The analysis visits entries in place, round after round. What it returns is the least set of
names that is closed under `qualifies`, and an entry is in it exactly when it has a finite
derivation from the rules of `Positioned`.
-/

namespace TreeSchema

/-- The rules by which an entry has a position. The last one asks for derivations of all the kinds
that a payload refers to, so a derivation is a finite tree. -/
inductive Positioned (s : Schema) : Entry → Prop where
  | forced {e : Entry} (kind : e.isAlias = false) (forced : e.forcePosition = true) : Positioned s e
  | field {e : Entry} {fields : Fields} {f : String} (shape : e.shape = .product fields)
      (field : (f, .position) ∈ fields) : Positioned s e
  | payload {e : Entry} {variants : List (String × Variant)} {v : String}
      (shape : e.shape = .sum variants) (counted : Positions.isExcluded e = false)
      (variant : (v, .wrap .position) ∈ variants) : Positioned s e
  | variantField {e : Entry} {variants : List (String × Variant)} {v f : String} {fields : Fields}
      {hasId : Bool} (shape : e.shape = .sum variants) (counted : Positions.isExcluded e = false)
      (variant : (v, .struct fields hasId) ∈ variants) (field : (f, .position) ∈ fields) :
      Positioned s e
  | wraps {e : Entry} {variants : List (String × Variant)} {v : String} {t : TypeExpr}
      (shape : e.shape = .sum variants) (counted : Positions.isExcluded e = false)
      (variant : (v, .wrap t) ∈ variants) (refers : s.wrappedKinds t ≠ [])
      (kinds : ∀ k ∈ s.wrappedKinds t, Positioned s k) : Positioned s e

namespace Positions

variable {s : Schema} {p q : Positions} {e : Entry}

@[simp] theorem contains_iff {name : String} : p.contains name = true ↔ name ∈ p.names := by
  simp [contains]

theorem wrapsPositioned_iff {t : TypeExpr} : p.wrapsPositioned s t = true ↔
    s.wrappedKinds t ≠ [] ∧ ∀ k ∈ s.wrappedKinds t, k.name ∈ p.names := by
  simp [wrapsPositioned]

/-- What `qualifies` asks of a variant, case by case. -/
theorem variantQualifies_iff {v : Variant} : p.variantQualifies s v = true ↔
    v = .wrap .position ∨ (∃ fields hasId f, v = .struct fields hasId ∧ (f, .position) ∈ fields) ∨
      ∃ t, v = .wrap t ∧ s.wrappedKinds t ≠ [] ∧ ∀ k ∈ s.wrappedKinds t, k.name ∈ p.names := by
  cases v with
  | unit => simp [variantQualifies]
  | wrap t => simp [variantQualifies, wrapsPositioned_iff]
  | struct fields hasId => simp [variantQualifies]

theorem qualifies_sum {variants : List (String × Variant)} (h : e.shape = .sum variants) :
    p.qualifies s e = true ↔ e.forcePosition = true ∨
      (isExcluded e = false ∧ ∃ v ∈ variants, p.variantQualifies s v.2 = true) := by
  simp [qualifies, h]

theorem qualifies_product {fields : Fields} (h : e.shape = .product fields) :
    p.qualifies s e = true ↔ e.forcePosition = true ∨ ∃ f, (f, .position) ∈ fields := by
  simp [qualifies, h]

theorem qualifies_alias {t : TypeExpr} (h : e.shape = .aliasOf t) : p.qualifies s e = false := by
  simp [qualifies, h]

/-- An entry that qualifies relative to kinds with derivations has one itself. -/
theorem positioned_of_qualifies (hp : ∀ k ∈ s.entries, k.name ∈ p.names → Positioned s k)
    (hq : p.qualifies s e = true) : Positioned s e := by
  cases hs : e.shape with
  | aliasOf t => rw [qualifies_alias hs] at hq; cases hq
  | product fields =>
    rw [qualifies_product hs] at hq
    rcases hq with hf | ⟨f, hf⟩
    · exact .forced (by simp [Entry.isAlias, hs]) hf
    · exact .field hs hf
  | sum variants =>
    rw [qualifies_sum hs] at hq
    rcases hq with hf | ⟨hx, ⟨name, v⟩, hv, hvq⟩
    · exact .forced (by simp [Entry.isAlias, hs]) hf
    · rcases variantQualifies_iff.mp hvq with rfl | ⟨fields, hasId, f, rfl, hf⟩ | ⟨t, rfl, hne, hk⟩
      · exact .payload hs hx hv
      · exact .variantField hs hx hv hf
      · exact .wraps hs hx hv hne fun k hm =>
          hp k (Schema.mem_entries_of_mem_wrappedKinds hm) (hk k hm)

/-- A set of names that holds every entry that qualifies relative to it. -/
def Closed (s : Schema) (p : Positions) : Prop :=
  ∀ e ∈ s.entries, p.qualifies s e = true → e.name ∈ p.names

/-- Induction over the derivation: each rule is a way to qualify, and the kinds of the last rule
are in the closed set by induction. -/
theorem qualifies_of_positioned (hc : Closed s p) (h : Positioned s e) :
    p.qualifies s e = true := by
  induction h with
  | @forced e kind forced =>
    cases hs : e.shape with
    | aliasOf t => simp [Entry.isAlias, hs] at kind
    | product fields => exact (qualifies_product hs).mpr (.inl forced)
    | sum variants => exact (qualifies_sum hs).mpr (.inl forced)
  | field shape field => exact (qualifies_product shape).mpr (.inr ⟨_, field⟩)
  | payload shape counted variant =>
    exact (qualifies_sum shape).mpr
      (.inr ⟨counted, _, variant, variantQualifies_iff.mpr (.inl rfl)⟩)
  | variantField shape counted variant field =>
    refine (qualifies_sum shape).mpr (.inr ⟨counted, _, variant, ?_⟩)
    exact variantQualifies_iff.mpr (.inr (.inl ⟨_, _, _, rfl, field⟩))
  | wraps shape counted variant refers kinds ih =>
    refine (qualifies_sum shape).mpr (.inr ⟨counted, _, variant, ?_⟩)
    refine variantQualifies_iff.mpr (.inr (.inr ⟨_, rfl, refers, fun k hk => ?_⟩))
    exact hc k (Schema.mem_entries_of_mem_wrappedKinds hk) (ih k hk)

/-! ### One visit, one round, all rounds -/

theorem visit_cases (s : Schema) (p : Positions) (e : Entry) :
    visit s p e = p ∨
      (e.name ∉ p.names ∧ p.qualifies s e = true ∧ visit s p e = ⟨p.names ++ [e.name]⟩) := by
  unfold visit
  split
  · next h =>
    simp only [Bool.and_eq_true, Bool.not_eq_true', ← Bool.not_eq_true, contains_iff] at h
    exact .inr ⟨h.1, h.2, rfl⟩
  · exact .inl rfl

/-- What holds of the names at every moment of the analysis: none is listed twice, and each belongs
to an entry with a derivation. -/
structure Grounded (s : Schema) (p : Positions) : Prop where
  nodup : p.names.Nodup
  derived : ∀ n ∈ p.names, ∃ e ∈ s.entries, e.name = n ∧ Positioned s e

namespace Grounded

theorem empty (s : Schema) : Grounded s ⟨[]⟩ := ⟨List.nodup_nil, by simp⟩

theorem positioned (h : Grounded s p) (he : e ∈ s.entries) (hn : e.name ∈ p.names) :
    Positioned s e := by
  obtain ⟨a, ha, hae, hp⟩ := h.derived _ hn
  rwa [← s.eq_of_name_eq ha he hae]

theorem visit (h : Grounded s p) (he : e ∈ s.entries) : Grounded s (visit s p e) := by
  rcases visit_cases s p e with hv | ⟨hn, hq, hv⟩
  · rwa [hv]
  · rw [hv]
    refine ⟨h.nodup.append (List.nodup_singleton _) (by simpa using hn), ?_⟩
    intro n hm
    rcases List.mem_append.mp hm with hm | hm
    · exact h.derived n hm
    · rw [List.mem_singleton.mp hm]
      exact ⟨e, he, rfl, positioned_of_qualifies (fun k hk => h.positioned hk) hq⟩

theorem visits (h : Grounded s p) {es : List Entry} (hes : es ⊆ s.entries) :
    Grounded s (es.foldl (Positions.visit s) p) := by
  induction es generalizing p with
  | nil => exact h
  | cons a es ih =>
    have ha : a ∈ s.entries := hes (List.mem_cons_self ..)
    exact ih (h.visit ha) fun x hx => hes (List.mem_cons_of_mem _ hx)

theorem round (h : Grounded s p) : Grounded s (round s p) := h.visits (List.Subset.refl _)

theorem iterate (h : Grounded s p) (k : ℕ) : Grounded s ((Positions.round s)^[k] p) := by
  induction k generalizing p with
  | zero => exact h
  | succ k ih => exact ih h.round

/-- There are no more names than entries. -/
theorem length_le (h : Grounded s p) : p.names.length ≤ s.entries.length := by
  have hsub : p.names ⊆ s.entries.map Entry.name := by
    intro n hn
    obtain ⟨e, he, hen, -⟩ := h.derived n hn
    exact List.mem_map.mpr ⟨e, he, hen⟩
  simpa using List.Nodup.length_le_of_subset h.nodup hsub

end Grounded

theorem length_visits_le (s : Schema) (p : Positions) (es : List Entry) :
    p.names.length ≤ (es.foldl (visit s) p).names.length := by
  induction es generalizing p with
  | nil => exact Nat.le_refl _
  | cons a es ih =>
    refine Nat.le_trans ?_ (ih (visit s p a))
    rcases visit_cases s p a with h | ⟨-, -, h⟩
    · simp [h]
    · simp [h]

/-- Visits that leave the names as long as they were have added nothing on the way. -/
theorem visits_of_length_eq {es : List Entry}
    (h : (es.foldl (visit s) p).names.length = p.names.length) :
    es.foldl (visit s) p = p ∧ ∀ e ∈ es, p.qualifies s e = true → e.name ∈ p.names := by
  induction es generalizing p with
  | nil => exact ⟨rfl, by simp⟩
  | cons a es ih =>
    have hle := length_visits_le s (visit s p a) es
    rw [List.foldl_cons] at h ⊢
    rcases visit_cases s p a with hv | ⟨-, -, hv⟩
    · rw [hv] at h ⊢
      obtain ⟨hp, hes⟩ := ih h
      refine ⟨hp, fun e he hq => ?_⟩
      rcases List.mem_cons.mp he with rfl | he
      · by_contra hn
        have hlen := congrArg (·.names.length) hv
        simp [visit, hn, hq, contains] at hlen
      · exact hes e he hq
    · rw [hv] at hle h
      simp only [List.length_append, List.length_singleton] at hle h
      omega

theorem closed_of_round_eq (h : round s p = p) : Closed s p :=
  (visits_of_length_eq (congrArg (·.names.length) h)).2

theorem length_lt_round (h : round s p ≠ p) : p.names.length < (round s p).names.length := by
  have hle := length_visits_le s p s.entries
  have hne : (round s p).names.length ≠ p.names.length := fun he => h (visits_of_length_eq he).1
  unfold round at hne ⊢
  omega

/-- With as many rounds left as names can still be added, the analysis ends in a round that
changes nothing, and every round before it adds a name. -/
theorem settle_spec (s : Schema) (n : ℕ) {p : Positions} (hg : Grounded s p)
    (hn : s.entries.length < p.names.length + n) :
    ∃ k, p.names.length + k ≤ s.entries.length ∧ settle s n p = (round s)^[k] p ∧
      (round s)^[k + 1] p = (round s)^[k] p ∧ ∀ j < k, (round s)^[j + 1] p ≠ (round s)^[j] p := by
  induction n generalizing p with
  | zero => have := hg.length_le; omega
  | succ n ih =>
    by_cases h : round s p = p
    · exact ⟨0, hg.length_le, by simp [settle, h], h, by simp⟩
    · have hlt := length_lt_round h
      obtain ⟨k, hk, hs, hstop, hgo⟩ := ih hg.round (by omega)
      refine ⟨k + 1, by omega, by simpa [settle, h] using hs, hstop, ?_⟩
      intro j hj
      cases j with
      | zero => exact h
      | succ j => exact hgo j (by omega)

/-- The rounds that the analysis of a schema takes. -/
theorem analyze_rounds (s : Schema) : ∃ k ≤ s.entries.length,
    analyze s = (round s)^[k] ⟨[]⟩ ∧ (round s)^[k + 1] ⟨[]⟩ = (round s)^[k] ⟨[]⟩ ∧
      ∀ j < k, (round s)^[j + 1] ⟨[]⟩ ≠ (round s)^[j] ⟨[]⟩ := by
  obtain ⟨k, hk, h⟩ := settle_spec s (s.entries.length + 1) (Grounded.empty s) (by simp)
  exact ⟨k, by simpa using hk, h⟩

theorem grounded_analyze (s : Schema) : Grounded s (analyze s) := by
  obtain ⟨k, -, h, -⟩ := analyze_rounds s
  rw [h]
  exact (Grounded.empty s).iterate k

theorem closed_analyze (s : Schema) : Closed s (analyze s) := by
  obtain ⟨k, -, h, hstop, -⟩ := analyze_rounds s
  refine closed_of_round_eq ?_
  rw [h, ← Function.iterate_succ_apply' (round s), hstop]

theorem mem_analyze_iff (he : e ∈ s.entries) : e.name ∈ (analyze s).names ↔ Positioned s e :=
  ⟨fun h => (grounded_analyze s).positioned he h,
    fun h => closed_analyze s e he (qualifies_of_positioned (closed_analyze s) h)⟩

/-- A sum without a forced position whose variants all wrap kinds of a given list. -/
def OnlyWraps (s : Schema) (kinds : List Entry) (e : Entry) : Prop :=
  e.forcePosition = false ∧ ∃ variants, e.shape = .sum variants ∧
    ∀ v ∈ variants, ∃ t, v.2 = .wrap t ∧ t ≠ .position ∧ ∀ k ∈ s.wrappedKinds t, k ∈ kinds

/-- No derivation starts inside a list of sums that only wrap each other: its last rule would have
to be the one about payloads, whose premises are about the list again. -/
theorem not_positioned_of_onlyWraps {kinds : List Entry} (hk : ∀ e ∈ kinds, OnlyWraps s kinds e)
    (h : Positioned s e) : e ∉ kinds := by
  induction h with
  | forced kind forced => intro he; simp [(hk _ he).1] at forced
  | field shape field =>
    intro he
    obtain ⟨-, variants, hs, -⟩ := hk _ he
    simp [shape] at hs
  | payload shape counted variant =>
    intro he
    obtain ⟨-, variants, hs, hv⟩ := hk _ he
    obtain rfl : _ = variants := by simpa [shape] using hs
    obtain ⟨t, ht, hne, -⟩ := hv _ variant
    simp only [Variant.wrap.injEq] at ht
    exact hne ht.symm
  | variantField shape counted variant field =>
    intro he
    obtain ⟨-, variants, hs, hv⟩ := hk _ he
    obtain rfl : _ = variants := by simpa [shape] using hs
    obtain ⟨t, ht, -⟩ := hv _ variant
    simp at ht
  | wraps shape counted variant refers kinds ih =>
    intro he
    obtain ⟨-, variants, hs, hv⟩ := hk _ he
    obtain rfl : _ = variants := by simpa [shape] using hs
    obtain ⟨t, ht, -, hin⟩ := hv _ variant
    obtain ⟨k, hkt⟩ := List.exists_mem_of_ne_nil _ refers
    simp only [Variant.wrap.injEq] at ht
    exact ih k hkt (hin k (ht ▸ hkt))

theorem analyze_subset_of_closed (hc : Closed s p) : (analyze s).names ⊆ p.names := by
  intro n hn
  obtain ⟨e, he, rfl, hp⟩ := (grounded_analyze s).derived n hn
  exact hc e he (qualifies_of_positioned hc hp)

/-- The analysis gives names of entries, is a fixed point, is contained in every closed set, and
holds exactly the entries with a derivation, so no circle of sums. It takes at most one round more
than there are entries: `k` rounds that add something and one that does not. -/
theorem analyze_least_fixed_point (s : Schema) :
    (∀ n ∈ (analyze s).names, ∃ e ∈ s.entries, e.name = n) ∧
    (∀ e ∈ s.entries,
      (analyze s).contains e.name = true ↔ (analyze s).qualifies s e = true) ∧
    (∀ p, Closed s p → ∀ n, (analyze s).contains n = true → p.contains n = true) ∧
    (∀ e ∈ s.entries, (analyze s).contains e.name = true ↔ Positioned s e) ∧
    (∀ kinds ⊆ s.entries, (∀ e ∈ kinds, OnlyWraps s kinds e) →
      ∀ e ∈ kinds, (analyze s).contains e.name = false) ∧
    ∃ k ≤ s.entries.length, analyze s = (round s)^[k] ⟨[]⟩ ∧
      (round s)^[k + 1] ⟨[]⟩ = (round s)^[k] ⟨[]⟩ ∧
      ∀ j < k, (round s)^[j + 1] ⟨[]⟩ ≠ (round s)^[j] ⟨[]⟩ := by
  have hiff : ∀ e ∈ s.entries, (analyze s).contains e.name = true ↔ Positioned s e := by
    intro e he
    rw [contains_iff, mem_analyze_iff he]
  refine ⟨?_, ?_, ?_, hiff, ?_, analyze_rounds s⟩
  · intro n hn
    obtain ⟨e, he, hen, -⟩ := (grounded_analyze s).derived n hn
    exact ⟨e, he, hen⟩
  · intro e he
    rw [hiff e he]
    refine ⟨qualifies_of_positioned (closed_analyze s), fun hq => ?_⟩
    exact (mem_analyze_iff he).mp (closed_analyze s e he hq)
  · intro p hc n hn
    exact contains_iff.mpr (analyze_subset_of_closed hc (contains_iff.mp hn))
  · intro kinds hsub hk e he
    rw [← Bool.not_eq_true, hiff e (hsub he)]
    exact fun hp => not_positioned_of_onlyWraps hk hp he

/-- A sum with one variant, which wraps a type. -/
def wrapping (name : String) (t : TypeExpr) : Entry :=
  { name, displayName := name, shape := .sum [("Only", .wrap t)] }

/-- Two sums that wrap each other, and a chain of two more that ends in a product with a
position. -/
def circleSchema : Schema where
  entries := [wrapping "Outer" (.named "Inner"), wrapping "Inner" (.wrap .box (.named "Name")),
    { name := "Name", displayName := "Name", shape := .product [("span", .position)] },
    wrapping "Left" (.named "Right"), wrapping "Right" (.wrap .box (.named "Left"))]
  nodup := by decide

example : (analyze circleSchema).names = ["Name", "Inner", "Outer"] := by decide

theorem analyze_circle :
    let circle := [wrapping "Left" (.named "Right"), wrapping "Right" (.wrap .box (.named "Left"))]
    (∀ e ∈ circle, OnlyWraps circleSchema circle e) ∧
      (∀ e ∈ circle, (analyze circleSchema).contains e.name = false) ∧
      Positioned circleSchema (wrapping "Outer" (.named "Inner")) := by
  intro circle
  obtain ⟨-, -, -, hiff, hcircle, -⟩ := analyze_least_fixed_point circleSchema
  have hw : ∀ e ∈ circle, OnlyWraps circleSchema circle e := by
    have hl : ∀ k ∈ circleSchema.wrappedKinds (.named "Right"), k ∈ circle := by decide
    have hr : ∀ k ∈ circleSchema.wrappedKinds (.wrap .box (.named "Left")), k ∈ circle := by decide
    intro e he
    simp only [circle, List.mem_cons, List.not_mem_nil, or_false] at he
    rcases he with rfl | rfl
    · exact ⟨rfl, _, rfl, by simpa using hl⟩
    · exact ⟨rfl, _, rfl, by simpa using hr⟩
  refine ⟨hw, hcircle circle (by decide) hw, ?_⟩
  exact (hiff _ (by decide)).mp (by decide)

end Positions

end TreeSchema
