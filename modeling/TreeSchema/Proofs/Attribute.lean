import TreeSchema.Proofs.Schema.GateChecks
import TreeSchema.Proofs.Schema.Origin
import TreeSchema.Proofs.Source.Literal

/-!
# Gates and their attributes

Which gates are what their attributes are read as.
-/

namespace TreeSchema

namespace Gate

open Source

theorem isComplement_iff {a b : Gate} :
    a.isComplement b = true ↔ ∀ v, (a.holds v != b.holds v) = true := by
  constructor
  · intro h v
    rw [holds_of_isComplement h v]
    cases a.holds v <;> rfl
  · intro h
    by_contra hno
    -- Otherwise both gates can be off.
    have hab : a.isComplement b = false := by simpa using hno
    have hba : b.isComplement a = false := by
      rw [← hab, isComplement, isComplement, BEq.comm, bne_comm]
    have hself (g : Gate) : g.isComplement g = false := by simp [isComplement]
    have hgates : ∀ x ∈ [a, b], ∀ y ∈ [a, b], x.isComplement y = false := by
      simp [hab, hba, hself]
    obtain ⟨v, -, hoff⟩ := exists_allows_and_none_holds none [a, b] (by simp) hgates
    have hv := h v
    rw [hoff a (by simp), hoff b (by simp)] at hv
    cases hv

theorem satisfied_cfgAttribute {g : Gate} (hg : isFeature g.feature.toList = true)
    (hslash : '\\' ∉ g.feature.toList) (v : Valuation) :
    satisfied v g.cfgAttribute = g.holds v := by
  rw [satisfied, (attribute?_eq_condition_iff hg).mpr hslash, Option.any_some, holds_condition]

theorem cfgAttribute_injective : Function.Injective cfgAttribute := by
  rintro ⟨feature, negated⟩ ⟨feature', negated'⟩ h
  have hchars := congrArg String.toList h
  cases negated <;> cases negated' <;>
    simp [cfgAttribute, String.toList_append, -String.reduceAppend] at hchars ⊢
  all_goals exact String.toList_inj.mp hchars

/-- The literal in the attribute of a gate ends in the attribute and means the feature, and the
attribute is true with the gate, exactly if the feature has no backslash. Gates with one attribute
are equal. Of two gates without backslashes, one is the complement of the other exactly if always
one of their attributes is true. -/
theorem attribute_means_gate_iff {x y : String} {a b : Gate} (ha : parse? x = some a)
    (hb : parse? y = some b) :
    (attribute? a.cfgAttribute = some a.condition ↔ '\\' ∉ a.feature.toList) ∧
    ((∀ v, (attribute? a.cfgAttribute).map (Cfg.holds v) = some (a.holds v)) ↔
      '\\' ∉ a.feature.toList) ∧
    (a.cfgAttribute = b.cfgAttribute → a = b) ∧
    ('\\' ∉ a.feature.toList → '\\' ∉ b.feature.toList → (a.isComplement b = true ↔
      ∀ v, (satisfied v a.cfgAttribute != satisfied v b.cfgAttribute) = true)) := by
  have hfa := isFeature_of_parse? ha
  have hfb := isFeature_of_parse? hb
  refine ⟨attribute?_eq_condition_iff hfa, ?_, fun h => cfgAttribute_injective h, ?_⟩
  · rw [← attribute?_eq_condition_iff_holds, attribute?_eq_condition_iff hfa]
  · intro hslash hslash'
    simp only [satisfied_cfgAttribute hfa hslash, satisfied_cfgAttribute hfb hslash',
      isComplement_iff]

end Gate

namespace Backslash

open Gate Source

/-- The literal of the first gate does not end. That of the second means another feature, so that
its attribute is true exactly if that of the third is false, but the two are no complements. -/
theorem attribute_not_gate :
    (parse? "a\\" = some ⟨"a\\", false⟩ ∧ attribute? (cfgAttribute ⟨"a\\", false⟩) = none) ∧
    parse? "\\x61" = some ⟨"\\x61", false⟩ ∧ parse? "!a" = some ⟨"a", true⟩ ∧
    attribute? (cfgAttribute ⟨"\\x61", false⟩) = some (.feature "a") ∧
    isComplement ⟨"\\x61", false⟩ ⟨"a", true⟩ = false ∧
    ∀ v, (satisfied v (cfgAttribute ⟨"\\x61", false⟩) !=
      satisfied v (cfgAttribute ⟨"a", true⟩)) = true := by
  have hx : attribute? (cfgAttribute ⟨"\\x61", false⟩) = some (.feature "a") := by decide
  have ha : attribute? (cfgAttribute ⟨"a", true⟩) = some (.not (.feature "a")) := by decide
  refine ⟨⟨by decide, by decide⟩, by decide, by decide, hx, by decide, fun v => ?_⟩
  rw [satisfied, satisfied, hx, ha]
  cases hv : v "a" <;> simp [Cfg.holds, hv]

theorem attribute_slim : attribute? (cfgAttribute ⟨"slim", true⟩) = some (.not (.feature "slim")) ∧
    ∀ v, (satisfied v (cfgAttribute ⟨"slim", true⟩) !=
      satisfied v (cfgAttribute ⟨"slim", false⟩)) = true := by
  have ha : parse? " ! slim" = some ⟨"slim", true⟩ := by decide
  have hb : parse? "slim" = some ⟨"slim", false⟩ := by decide
  obtain ⟨hread, -, -, hcomplement⟩ := attribute_means_gate_iff ha hb
  exact ⟨hread.mpr (by decide), (hcomplement (by decide) (by decide)).mp (by decide)⟩

end Backslash

end TreeSchema
