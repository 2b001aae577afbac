import Mathlib.Data.List.Nodup
import TreeSchema.Schema.Basic

/-!
# Looking names up

What a name of a schema refers to. Names of entries differ, so an entry is found under its own name
and under no other entry's.
-/

namespace TreeSchema

@[simp] theorem TypeExpr.isPosition_iff {t : TypeExpr} : t.isPosition = true ↔ t = .position := by
  cases t <;> simp [isPosition]

theorem Fields.mem_of_lookup {fields : Fields} {f : String} {t : TypeExpr}
    (h : fields.lookup f = some t) : (f, t) ∈ fields := by
  obtain ⟨before, after, rfl, -⟩ := List.lookup_eq_some_iff.mp h
  simp

namespace Schema

theorem eq_of_name_eq (s : Schema) {a b : Entry} (ha : a ∈ s.entries) (hb : b ∈ s.entries)
    (h : a.name = b.name) : a = b :=
  List.inj_on_of_nodup_map s.nodup ha hb h

theorem get?_eq_some_iff {s : Schema} {name : String} {e : Entry} :
    s.get? name = some e ↔ e ∈ s.entries ∧ e.name = name := by
  constructor
  · intro h
    exact ⟨List.mem_of_find?_eq_some h, by simpa using List.find?_some h⟩
  · rintro ⟨he, rfl⟩
    cases hg : s.get? e.name with
    | none => exact absurd (List.find?_eq_none.mp hg e he) (by simp)
    | some a =>
      have ha := List.mem_of_find?_eq_some hg
      have hn : a.name = e.name := by simpa using List.find?_some hg
      rw [s.eq_of_name_eq ha he hn]

theorem get?_eq_none_iff {s : Schema} {name : String} :
    s.get? name = none ↔ ∀ e ∈ s.entries, e.name ≠ name := by
  simp [get?, List.find?_eq_none]

theorem mem_entries_of_mem_resolve {s : Schema} {name : String} {e : Entry}
    (h : e ∈ s.resolve name) : e ∈ s.entries := by
  unfold resolve at h
  split at h
  · next a ha =>
    rw [List.mem_singleton.mp h]
    exact (get?_eq_some_iff.mp ha).1
  · exact (List.mem_filter.mp h).1

theorem mem_entries_of_mem_wrappedKinds {s : Schema} {t : TypeExpr} {e : Entry}
    (h : e ∈ s.wrappedKinds t) : e ∈ s.entries := by
  unfold wrappedKinds at h
  split at h
  · exact mem_entries_of_mem_resolve (List.mem_filter.mp h).1
  · simp at h

variable {s : Schema} {t : TypeExpr}

theorem aliasTarget?_eq_some {target : TypeExpr} (h : s.aliasTarget? t = some target) :
    ∃ a ∈ s.entries, a.shape = .aliasOf target := by
  unfold aliasTarget? at h
  split at h
  · next n =>
    split at h
    · next a ha =>
      split at h
      · next t' hs =>
        cases h
        exact ⟨a, mem_entries_of_mem_resolve (ha ▸ List.mem_singleton.mpr rfl), hs⟩
      · cases h
    · cases h
  · cases h

end Schema

end TreeSchema
