import Mathlib.Tactic.Tauto
import TreeSchema.Proofs.Checked
import TreeSchema.Proofs.Schema.Lookup
import TreeSchema.Schema.Check

/-!
# References under every setting of the features

A schema that passes its checks never mentions a name that is missing or ambiguous: whichever
features are on, a name in an entry that is there means exactly one of the entries it refers to.
-/

namespace TreeSchema

open Checked

namespace Gate

theorem holds_of_isComplement {g h : Gate} (hc : g.isComplement h = true) (v : Valuation) :
    h.holds v = !g.holds v := by
  simp only [isComplement, Bool.and_eq_true, beq_iff_eq, bne_iff_ne] at hc
  obtain ⟨hf, hn⟩ := hc
  unfold holds
  rw [← hf]
  cases v g.feature <;> cases hg : g.negated <;> cases hh : h.negated <;> simp_all

end Gate

namespace Entry

/-- The names in the types that an entry declares. -/
def typeNames (e : Entry) : List String := e.shape.types.flatMap TypeExpr.names

theorem enabled_of_gate_none {e : Entry} (h : e.gate = none) (v : Gate.Valuation) :
    e.enabled v = true := by
  simp [enabled, Gate.allows, h]

theorem enabled_of_gate_some {e : Entry} {g : Gate} (h : e.gate = some g) (v : Gate.Valuation) :
    e.enabled v = g.holds v := by
  simp [enabled, Gate.allows, h]

end Entry

namespace Schema

variable {s : Schema} {imported : List String} {e : Entry} {n : String}

theorem check_eq_ok_iff : s.check imported = .ok () ↔ s.checkNames = .ok () ∧
    (∀ e ∈ s.entries, s.checkEntry imported e = .ok ()) ∧ s.checkRequired imported = .ok () := by
  simp only [check, then_eq_ok_iff, forEach_eq_ok_iff]

theorem checkReferences_eq_ok_iff : s.checkReferences imported e = .ok () ↔
    ∀ n ∈ e.typeNames, s.isKnown imported n = true ∧ s.checkGate e n = .ok () := by
  simp only [checkReferences, forEach_eq_ok_iff, then_eq_ok_iff, require_eq_ok_iff, Entry.typeNames]

theorem checkReferences_of_check (h : s.check imported = .ok ()) (he : e ∈ s.entries) :
    s.checkReferences imported e = .ok () := by
  have hentry := (check_eq_ok_iff.mp h).2.1 e he
  exact (then_eq_ok_iff.mp hentry).1

theorem mayShare_of_checkNames (h : s.checkNames = .ok ()) (he : e ∈ s.entries) :
    mayShare (s.writtenAs e.displayName) = true := by
  simp only [checkNames, forEach_eq_ok_iff, require_eq_ok_iff, List.mem_eraseDups] at h
  exact h _ (List.mem_map.mpr ⟨e, he, rfl⟩)

theorem checkNames_eq_ok_iff : s.checkNames = .ok () ↔
    ∀ e ∈ s.entries, mayShare (s.writtenAs e.displayName) = true := by
  refine ⟨fun h e he => mayShare_of_checkNames h he, fun h => ?_⟩
  simp only [checkNames, forEach_eq_ok_iff, require_eq_ok_iff, List.mem_eraseDups, List.mem_map]
  rintro name ⟨e, he, rfl⟩
  exact h e he

/-- Entries that may share a name are one entry or two that are never there together. -/
theorem filter_enabled_of_mayShare {es : List Entry} (h : mayShare es = true)
    (v : Gate.Valuation) (he : e ∈ es) (hv : e.enabled v = true) :
    es.filter (Entry.enabled v) = [e] := by
  match es, h with
  | [a], _ =>
    obtain rfl := List.mem_singleton.mp he
    simp [hv]
  | [a, b], h =>
    cases hx : a.gate with
    | none => simp [mayShare, hx] at h
    | some x =>
      cases hy : b.gate with
      | none => simp [mayShare, hx, hy] at h
      | some y =>
        have hc := Gate.holds_of_isComplement (by simpa [mayShare, hx, hy] using h) v
        have hb : b.enabled v = !a.enabled v := by
          rw [Entry.enabled_of_gate_some hx, Entry.enabled_of_gate_some hy, hc]
        simp only [List.mem_cons, List.not_mem_nil, or_false] at he
        rcases he with rfl | rfl
        · simp [hb, hv]
        · have ha : a.enabled v = false := by simpa [hv] using hb
          simp [ha, hv]

theorem mem_allGates {es : List Entry} {gates : List Gate} (h : allGates es = some gates)
    {g : Gate} :
    g ∈ gates ↔ ∃ e ∈ es, e.gate = some g := by
  induction es generalizing gates with
  | nil => simp_all [allGates]
  | cons a es ih =>
    simp only [allGates, List.mapM_cons, Option.bind_eq_bind, Option.pure_def,
      Option.bind_eq_some_iff] at h
    obtain ⟨x, hx, rest, hrest, hg⟩ := h
    obtain rfl := Option.some.inj hg
    simp [ih hrest, hx, eq_comm]

theorem exists_ungated_of_allGates {es : List Entry} (h : allGates es = none) :
    ∃ e ∈ es, e.gate = none := by
  induction es with
  | nil => simp [allGates] at h
  | cons a es ih =>
    cases ha : a.gate with
    | none => exact ⟨a, List.mem_cons_self .., ha⟩
    | some g =>
      have hrest : allGates es = none := by
        simp only [allGates, List.mapM_cons, ha] at h ⊢
        cases hes : es.mapM Entry.gate with
        | none => rfl
        | some gates => simp [hes] at h
      obtain ⟨e, he, heg⟩ := ih hrest
      exact ⟨e, List.mem_cons_of_mem _ he, heg⟩

theorem gate_ne_none_of_allGates {es : List Entry} {gates : List Gate}
    (h : allGates es = some gates) : ∀ t ∈ es, t.gate ≠ none := by
  induction es generalizing gates with
  | nil => simp
  | cons a es ih =>
    simp only [allGates, List.mapM_cons, Option.bind_eq_bind, Option.pure_def,
      Option.bind_eq_some_iff] at h
    obtain ⟨x, hx, rest, hrest, -⟩ := h
    intro t ht
    rcases List.mem_cons.mp ht with rfl | ht
    · simp [hx]
    · exact ih hrest t ht

/-- The gate check in terms of the entries that the name refers to: there is none, one without a
gate, one under the gate of the entry, or two under opposite gates. -/
theorem checkGate_eq_ok_iff : s.checkGate e n = .ok () ↔ s.resolve n = [] ∨
    (∃ t ∈ s.resolve n, t.gate = none) ∨
    (∃ t ∈ s.resolve n, ∃ g, t.gate = some g ∧ e.gate = some g) ∨
    ∃ a ∈ s.resolve n, ∃ b ∈ s.resolve n, ∃ x y,
      a.gate = some x ∧ b.gate = some y ∧ x.isComplement y = true := by
  unfold checkGate
  cases hg : allGates (s.resolve n) with
  | none => simp [exists_ungated_of_allGates hg]
  | some gates =>
    have hmem {g : Gate} : g ∈ gates ↔ ∃ t ∈ s.resolve n, t.gate = some g := mem_allGates hg
    have hgated := gate_ne_none_of_allGates hg
    cases gates with
    | nil =>
      have hnil : s.resolve n = [] := by
        refine List.eq_nil_iff_forall_not_mem.mpr fun t ht => ?_
        obtain ⟨g, hgt⟩ := Option.ne_none_iff_exists'.mp (hgated t ht)
        simpa using hmem.mpr ⟨t, ht, hgt⟩
      simp [hnil]
    | cons first rest =>
      obtain ⟨t, ht, -⟩ := hmem.mp (List.mem_cons_self ..)
      have hne : s.resolve n ≠ [] := List.ne_nil_of_mem ht
      have hung : ¬ ∃ t ∈ s.resolve n, t.gate = none := fun ⟨t, ht, htg⟩ => hgated t ht htg
      simp only [require_eq_ok_iff, Bool.or_eq_true, Option.any_eq_true, List.contains_iff_mem,
        coversAll, List.any_eq_true, hmem, hne, hung, false_or]
      constructor
      · rintro (⟨g, heg, t, ht, htg⟩ | ⟨x, ⟨a, ha, hax⟩, y, ⟨b, hb, hby⟩, hxy⟩)
        · exact .inl ⟨t, ht, g, htg, heg⟩
        · exact .inr ⟨a, ha, b, hb, x, y, hax, hby, hxy⟩
      · rintro (⟨t, ht, g, htg, heg⟩ | ⟨a, ha, b, hb, x, y, hax, hby, hxy⟩)
        · exact .inl ⟨g, heg, t, ht, htg⟩
        · exact .inr ⟨x, ⟨a, ha, hax⟩, y, ⟨b, hb, hby⟩, hxy⟩

/-- A gate check that passes: whenever the entry is there, one that the name refers to is, too. -/
theorem exists_enabled_of_checkGate (h : s.checkGate e n = .ok ()) (hne : s.resolve n ≠ [])
    {v : Gate.Valuation} (hv : e.enabled v = true) : ∃ t ∈ s.resolve n, t.enabled v = true := by
  rcases checkGate_eq_ok_iff.mp h with hnil | ⟨t, ht, htg⟩ | ⟨t, ht, g, htg, heg⟩ |
    ⟨a, ha, b, hb, x, y, hax, hby, hxy⟩
  · exact absurd hnil hne
  · exact ⟨t, ht, Entry.enabled_of_gate_none htg v⟩
  · refine ⟨t, ht, ?_⟩
    rwa [Entry.enabled_of_gate_some htg, ← Entry.enabled_of_gate_some heg]
  · have hc := Gate.holds_of_isComplement hxy v
    cases hxv : x.holds v with
    | true => exact ⟨a, ha, by rw [Entry.enabled_of_gate_some hax, hxv]⟩
    | false => exact ⟨b, hb, by rw [Entry.enabled_of_gate_some hby, hc, hxv]; rfl⟩

/-- What a name refers to is written under the name that is written for it. -/
theorem mem_writtenAs_of_mem_resolve {t : Entry} (h : t ∈ s.resolve n) :
    t ∈ s.writtenAs (s.displayNameOf n) := by
  unfold resolve at h
  unfold displayNameOf writtenAs
  cases hg : s.get? n with
  | some a =>
    rw [hg] at h
    obtain rfl := List.mem_singleton.mp h
    simp [(get?_eq_some_iff.mp hg).1]
  | none => simpa [hg] using h

/-- Names that an entry mentions are there whenever it is. -/
theorem exists_enabled_of_check (h : s.check imported = .ok ()) (he : e ∈ s.entries)
    {v : Gate.Valuation} (hv : e.enabled v = true) (hn : n ∈ e.typeNames)
    (hne : s.resolve n ≠ []) : ∃ t ∈ s.resolve n, t.enabled v = true :=
  exists_enabled_of_checkGate
    (checkReferences_eq_ok_iff.mp (checkReferences_of_check h he) n hn).2 hne hv

/-- An enabled target is the only enabled entry under its written name. -/
theorem filter_writtenAs_of_check (h : s.check imported = .ok ()) {t : Entry}
    (ht : t ∈ s.resolve n) {v : Gate.Valuation} (hv : t.enabled v = true) :
    (s.writtenAs (s.displayNameOf n)).filter (Entry.enabled v) = [t] := by
  have hw := mem_writtenAs_of_mem_resolve ht
  have hd : t.displayName = s.displayNameOf n := by
    simpa [writtenAs] using (List.mem_filter.mp hw).2
  have hshare := mayShare_of_checkNames (check_eq_ok_iff.mp h).1 (mem_entries_of_mem_resolve ht)
  rw [hd] at hshare
  exact filter_enabled_of_mayShare hshare v hw hv

/-- Whatever features are on, a name in an entry that is there refers to no entry because it is
built in, a path or imported, or else the text written for it names exactly one entry that is
there, and that is one of those the name refers to. -/
theorem reference_denotes_one (h : s.check imported = .ok ()) (v : Gate.Valuation)
    (he : e ∈ s.entries) (hv : e.enabled v = true) (hn : n ∈ e.typeNames) :
    (s.resolve n = [] ∧ (Name.isPrimitive n = true ∨
      1 < (Name.segments n.toList).length ∨ n ∈ imported)) ∨
    ∃ t ∈ s.resolve n,
      (s.writtenAs (s.displayNameOf n)).filter (Entry.enabled v) = [t] := by
  by_cases hne : s.resolve n = []
  · left
    have hk := (checkReferences_eq_ok_iff.mp (checkReferences_of_check h he) n hn).1
    simp only [isKnown, hne, Bool.or_eq_true, decide_eq_true_eq, List.contains_iff_mem,
      List.isEmpty_nil, Bool.not_true, Bool.false_eq_true, or_false] at hk
    exact ⟨hne, by tauto⟩
  · right
    obtain ⟨t, ht, htv⟩ := exists_enabled_of_check h he hv hn hne
    exact ⟨t, ht, filter_writtenAs_of_check h ht htv⟩

/-- Two dialects of one type under opposite gates, one of them with the name of the other as its
key, and entries that refer to them in both ways. -/
def dialects : Schema where
  entries := [
    { name := "Array", displayName := "List", shape := .product [("x", .named "u8")],
      gate := some ⟨"modern", false⟩ },
    { name := "Old", displayName := "List", shape := .product [("y", .named "u8")],
      gate := some ⟨"modern", true⟩ },
    { name := "Holder", displayName := "Array",
      shape := .product [("value", .wrap .sequence (.named "List"))] },
    { name := "Modern", displayName := "Modern", shape := .product [("value", .named "Array")],
      gate := some ⟨"modern", false⟩, hasIdentity := false }]
  nodup := by decide

theorem dialects_reference_denotes_one :
    dialects.check ["NodeId", "Span", "HasId"] = .ok () ∧
      ∃ t ∈ dialects.resolve "List",
        (dialects.writtenAs (dialects.displayNameOf "List")).filter
          (Entry.enabled fun _ => false) = [t] := by
  have hcheck : dialects.check ["NodeId", "Span", "HasId"] = .ok () := by decide
  have hmem : dialects.entries[2] ∈ dialects.entries := by decide
  have h := reference_denotes_one (n := "List") hcheck (fun _ => false) hmem (by decide) (by decide)
  exact ⟨hcheck, h.resolve_left fun hempty => absurd hempty.1 (by decide)⟩

end Schema

end TreeSchema
