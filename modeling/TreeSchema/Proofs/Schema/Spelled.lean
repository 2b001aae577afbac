import TreeSchema.Proofs.Schema.Loaded
import TreeSchema.Proofs.TypeExpr

/-!
# How loaded entries are spelled

The names in the types of a loaded entry and the traits it derives are paths, and its gate is one
that was read from a text.
-/

namespace TreeSchema

/-- The name in the type is a path. -/
def TypeExpr.Spelled (t : TypeExpr) : Prop := ∀ n ∈ t.names, Name.isPath n = true

namespace TypeExpr

theorem Parsed.exists_written {t : TypeExpr} (h : t.Parsed) : ∃ cs, Written cs t := by
  obtain ⟨src, hsrc⟩ := h
  exact ⟨src.toList, written_of_parseChars hsrc⟩

theorem Parsed.spelled {t : TypeExpr} (h : t.Parsed) : t.Spelled := by
  obtain ⟨cs, hwritten⟩ := h.exists_written
  clear h
  induction hwritten with
  | position => simp [Spelled, names]
  | named path => simpa [Spelled, names] using Name.isPath_iff.mpr path
  | wrap _ _ _ ih => exact ih

end TypeExpr

namespace Entry

/-- Types that are spelled right. -/
def TypesSpelled (types : List TypeExpr) : Prop := ∀ t ∈ types, t.Spelled

/-- The promises about one entry that concern the texts in it. -/
structure Spelled (e : Entry) : Prop where
  types : TypesSpelled e.shape.types
  derives : ∀ t ∈ e.extraDerives, Name.isPath t = true
  gate : Gate.Parsed e.gate

theorem Parsed.spelled {e : Entry} (h : e.Parsed) : e.Spelled where
  types t ht := (h.shape.types t ht).spelled
  derives := h.derives
  gate := h.gate

end Entry

theorem Schema.spelled_ofDraft {d : Draft} {s : Schema} (h : ofDraft d = .ok s) :
    ∀ e ∈ s.entries, e.Spelled := fun e he => (parsed_ofDraft h e he).spelled

end TreeSchema
