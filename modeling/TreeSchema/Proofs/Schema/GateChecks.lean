import Mathlib.Data.List.Pairwise
import TreeSchema.Proofs.Schema.References

/-!
# Gate checks are exact

The checks compare gates and never look at a setting of the features. They still refuse just what
goes wrong under some setting: the gates of a list can all be off together unless two of them are
opposite, and of three gates two are not.
-/

namespace TreeSchema

namespace Gate

/-- All gates of a list can be off while an entry is let through, unless its own gate is one of
them or two of them are opposite. -/
theorem exists_allows_and_none_holds (own : Option Gate) (gates : List Gate)
    (hown : ∀ g ∈ gates, own ≠ some g)
    (hgates : ∀ x ∈ gates, ∀ y ∈ gates, x.isComplement y = false) :
    ∃ v, allows v own = true ∧ ∀ g ∈ gates, g.holds v = false := by
  -- A feature is on where some gate asks for its absence, or the entry for its presence.
  refine ⟨fun f => decide (⟨f, true⟩ ∈ gates ∨ own = some ⟨f, false⟩), ?_, ?_⟩
  · match own with
    | none => rfl
    | some ⟨f, false⟩ => simp [allows, holds]
    | some ⟨f, true⟩ =>
      have hnot : ⟨f, true⟩ ∉ gates := fun hg => hown _ hg rfl
      simp [allows, holds, hnot]
  · rintro ⟨f, negated⟩ hg
    cases negated with
    | true => simp [holds, hg]
    | false =>
      have hnot : ⟨f, true⟩ ∉ gates := by
        intro hopp
        have hc := hgates _ hg _ hopp
        simp [isComplement] at hc
      simp [holds, hnot, hown _ hg]

theorem exists_allows (own : Option Gate) : ∃ v, allows v own = true := by
  obtain ⟨v, hv, -⟩ := exists_allows_and_none_holds own [] (by simp) (by simp)
  exact ⟨v, hv⟩

/-- A gate can be off while another one lets its entry through. -/
theorem exists_allows_and_not_holds {own : Option Gate} {g : Gate} (h : own ≠ some g) :
    ∃ v, allows v own = true ∧ g.holds v = false := by
  obtain ⟨v, hv, hoff⟩ := exists_allows_and_none_holds own [g] (by simpa using h)
    (by simp [isComplement])
  exact ⟨v, hv, hoff g (List.mem_singleton.mpr rfl)⟩

end Gate

namespace Entry

/-- Two entries under opposite gates. -/
def Excludes (a b : Entry) : Prop :=
  ∃ x y, a.gate = some x ∧ b.gate = some y ∧ x.isComplement y = true

instance : Std.Symm Excludes where
  symm a b := by
    rintro ⟨x, y, hx, hy, hxy⟩
    refine ⟨y, x, hy, hx, ?_⟩
    simp only [Gate.isComplement, Bool.and_eq_true, beq_iff_eq, bne_iff_ne] at hxy ⊢
    exact ⟨hxy.1.symm, hxy.2.symm⟩

/-- Two entries are never there together just when their gates are opposite. -/
theorem excludes_iff {a b : Entry} :
    a.Excludes b ↔ ∀ v, a.enabled v = true → b.enabled v = false := by
  constructor
  · rintro ⟨x, y, hx, hy, hxy⟩ v hv
    rw [enabled_of_gate_some hx] at hv
    rw [enabled_of_gate_some hy, Gate.holds_of_isComplement hxy, hv]
    rfl
  · intro h
    cases hy : b.gate with
    | none =>
      obtain ⟨v, hv⟩ := Gate.exists_allows a.gate
      have hb := enabled_of_gate_none hy v
      rw [h v hv] at hb
      cases hb
    | some y =>
      -- Unless the first entry asks for the opposite of `y`, that can be off while it is there.
      by_contra hne
      have hown : a.gate ≠ some ⟨y.feature, !y.negated⟩ := by
        intro hx
        exact hne ⟨_, y, hx, hy, by simp [Gate.isComplement]⟩
      obtain ⟨v, hv, hoff⟩ := Gate.exists_allows_and_not_holds hown
      have hb := h v hv
      rw [enabled_of_gate_some hy] at hb
      simp only [Gate.holds, bne_eq_false_iff_eq] at hoff hb
      simp [hb] at hoff

/-- Of three entries two can be there together. -/
theorem Excludes.not_third {a b c : Entry} (hab : a.Excludes b) (hac : a.Excludes c) :
    ¬ b.Excludes c := by
  rintro ⟨y, z, hy, hz, hyz⟩
  obtain ⟨x, y', hx, hy', hxy⟩ := hab
  obtain ⟨x', z', hx', hz', hxz⟩ := hac
  cases hy'.symm.trans hy
  cases hx'.symm.trans hx
  cases hz'.symm.trans hz
  simp only [Gate.isComplement, Bool.and_eq_true, beq_iff_eq, bne_iff_ne] at hxy hxz hyz
  cases hn : x.negated <;> simp_all

end Entry

namespace Schema

variable {s : Schema} {e : Entry} {n : String}

/-- Entries may share a name when no two of them are ever there together. -/
theorem mayShare_iff {es : List Entry} :
    mayShare es = true ↔ es ≠ [] ∧ es.Pairwise Entry.Excludes := by
  match es with
  | [] => simp [mayShare]
  | [a] => simp [mayShare]
  | [a, b] =>
    cases hx : a.gate with
    | none => simp [mayShare, Entry.Excludes, hx]
    | some x =>
      cases hy : b.gate with
      | none => simp [mayShare, Entry.Excludes, hx, hy]
      | some y => simp [mayShare, Entry.Excludes, hx, hy]
  | a :: b :: c :: rest =>
    have hthree : ¬ (a :: b :: c :: rest).Pairwise Entry.Excludes := by
      intro h
      simp only [List.pairwise_cons, List.mem_cons, forall_eq_or_imp] at h
      exact h.1.1.not_third h.1.2.1 h.2.1.1
    simp [mayShare, hthree]

theorem nodup_entries (s : Schema) : s.entries.Nodup := s.nodup.of_map

/-- The check of names passes just when no two entries of one name are ever there together. -/
theorem checkNames_eq_ok_iff_excludes : s.checkNames = .ok () ↔
    ∀ a ∈ s.entries, ∀ b ∈ s.entries, a ≠ b → a.displayName = b.displayName → a.Excludes b := by
  rw [checkNames_eq_ok_iff]
  constructor
  · intro h a ha b hb hab hname
    have hpair := (mayShare_iff.mp (h a ha)).2
    refine hpair.forall ?_ ?_ hab
    · exact List.mem_filter.mpr ⟨ha, by simp⟩
    · exact List.mem_filter.mpr ⟨hb, by simp [hname]⟩
  · intro h e he
    have hmem : e ∈ s.writtenAs e.displayName := List.mem_filter.mpr ⟨he, by simp⟩
    refine mayShare_iff.mpr ⟨List.ne_nil_of_mem hmem, ?_⟩
    refine (s.nodup_entries.filter _).pairwise_of_forall_ne fun a ha b hb hab => ?_
    obtain ⟨ha, hna⟩ := List.mem_filter.mp ha
    obtain ⟨hb, hnb⟩ := List.mem_filter.mp hb
    exact h a ha b hb hab ((beq_iff_eq.mp hna).trans (beq_iff_eq.mp hnb).symm)

/-- Of the entries of one name, at most one is there. -/
theorem eq_of_displayName_eq (h : s.checkNames = .ok ()) {a b : Entry} (ha : a ∈ s.entries)
    (hb : b ∈ s.entries) (hname : a.displayName = b.displayName) {v : Gate.Valuation}
    (hav : a.enabled v = true) (hbv : b.enabled v = true) : a = b := by
  by_contra hne
  have hexcludes := checkNames_eq_ok_iff_excludes.mp h a ha b hb hne hname
  rw [Entry.excludes_iff.mp hexcludes v hav] at hbv
  cases hbv

/-- A gate check that fails leaves a setting in which the entry is there and nothing that the name
refers to. -/
theorem checkGate_of_exists_enabled
    (h : ∀ v, e.enabled v = true → ∃ t ∈ s.resolve n, t.enabled v = true) :
    s.checkGate e n = .ok () := by
  rw [checkGate_eq_ok_iff]
  by_contra hne
  simp only [not_or, not_exists, not_and] at hne
  obtain ⟨-, hgated, hown, hopp⟩ := hne
  let gates := (s.resolve n).filterMap Entry.gate
  have hmem {g : Gate} (hg : g ∈ gates) : ∃ t ∈ s.resolve n, t.gate = some g :=
    List.mem_filterMap.mp hg
  obtain ⟨v, hv, hoff⟩ := Gate.exists_allows_and_none_holds e.gate gates
    (fun g hg heg => by
      obtain ⟨t, ht, htg⟩ := hmem hg
      exact hown t ht g htg heg)
    (fun x hx y hy => by
      obtain ⟨a, ha, hax⟩ := hmem hx
      obtain ⟨b, hb, hby⟩ := hmem hy
      exact Bool.eq_false_iff.mpr (hopp a ha b hb x y hax hby))
  obtain ⟨t, ht, htv⟩ := h v hv
  obtain ⟨g, htg⟩ := Option.ne_none_iff_exists'.mp (hgated t ht)
  rw [Entry.enabled_of_gate_some htg, hoff g (List.mem_filterMap.mpr ⟨t, ht, htg⟩)] at htv
  cases htv

/-- Both checks refuse exactly what some setting of the features makes wrong: the check of names two
entries of one name that are there together, the check of a reference an entry that is there
without any of those the name refers to. -/
theorem gate_checks_exact (s : Schema) :
    (s.checkNames = .ok () ↔ ∀ v, ∀ a ∈ s.entries, ∀ b ∈ s.entries, a ≠ b →
      a.enabled v = true → b.enabled v = true → a.displayName ≠ b.displayName) ∧
    ∀ (e : Entry) (n : String), s.resolve n ≠ [] → (s.checkGate e n = .ok () ↔
      ∀ v, e.enabled v = true → ∃ t ∈ s.resolve n, t.enabled v = true) := by
  constructor
  · simp only [checkNames_eq_ok_iff_excludes, Entry.excludes_iff]
    constructor
    · intro h v a ha b hb hab hav hbv hname
      rw [h a ha b hb hab hname v hav] at hbv
      cases hbv
    · intro h a ha b hb hab hname v hav
      exact Bool.eq_false_iff.mpr fun hbv => h v a ha b hb hab hav hbv hname
  · intro e n hne
    exact ⟨fun h v hv => exists_enabled_of_checkGate h hne hv, checkGate_of_exists_enabled⟩

/-- Between two dialects a name is always there, and under the key of one of them it is not. -/
theorem dialects_gate_checks_exact :
    (∀ v, ∀ a ∈ dialects.entries, ∀ b ∈ dialects.entries, a ≠ b →
      a.enabled v = true → b.enabled v = true → a.displayName ≠ b.displayName) ∧
    (∀ v, ∃ t ∈ dialects.resolve "List", t.enabled v = true) ∧
    ¬ ∀ v, ∃ t ∈ dialects.resolve "Array", t.enabled v = true := by
  obtain ⟨hnames, hgate⟩ := gate_checks_exact dialects
  have hlist := hgate dialects.entries[2] "List" (by decide)
  have harray := hgate dialects.entries[2] "Array" (by decide)
  refine ⟨hnames.mp (by decide), fun v => hlist.mp (by decide) v rfl, fun h => ?_⟩
  have hok := harray.mpr fun v _ => h v
  revert hok
  decide

end Schema

end TreeSchema
