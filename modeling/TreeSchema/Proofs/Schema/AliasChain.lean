import Mathlib.Combinatorics.Pigeonhole
import TreeSchema.Proofs.Schema.Expansion

/-!
# Chains of aliases

A type that names an alias is replaced by what the alias stands for, again and again. The number of
steps is limited by the number of entries. That is enough to reach the end of every chain that has
one: a chain of more aliases than there are entries comes to one of them twice, and never ends.
-/

namespace TreeSchema.Schema

open Relation StateTransition

variable {s : Schema} {t u : TypeExpr}

/-- The chain of aliases from a type on comes to some alias and later to the same alias. -/
def Revisits (s : Schema) (t : TypeExpr) : Prop :=
  ∃ a u v, Reaches s.aliasTarget? t u ∧ s.alias? u = some a ∧
    Reaches₁ s.aliasTarget? u v ∧ s.alias? v = some a

theorem exists_aliasTarget? {a : Entry} (h : s.alias? t = some a) :
    ∃ target, a.shape = .aliasOf target ∧ s.aliasTarget? t = some target := by
  have halias : a.isAlias = true := by
    cases t with
    | position => cases h
    | wrap w inner => cases h
    | named name =>
      simp only [alias?] at h
      split at h
      · split at h
        · next hs => cases h; exact hs
        · cases h
      · cases h
  cases hshape : a.shape with
  | aliasOf target => exact ⟨target, rfl, aliasTarget?_eq_some_iff.mpr ⟨a, h, hshape⟩⟩
  | product fields => simp [Entry.isAlias, hshape] at halias
  | sum variants => simp [Entry.isAlias, hshape] at halias

theorem aliasTarget?_eq_none_iff : s.aliasTarget? t = none ↔ s.alias? t = none := by
  constructor
  · intro h
    by_contra hne
    obtain ⟨a, ha⟩ := Option.ne_none_iff_exists'.mp hne
    obtain ⟨target, -, htarget⟩ := exists_aliasTarget? ha
    rw [h] at htarget
    cases htarget
  · intro h
    by_contra hne
    obtain ⟨target, htarget⟩ := Option.ne_none_iff_exists'.mp hne
    obtain ⟨a, ha, -⟩ := aliasTarget?_eq_some_iff.mp htarget
    rw [h] at ha
    cases ha

/-! ### The steps that are made -/

/-- One more step at the far end of the chain, if there is one. -/
theorem followAlias_succ (s : Schema) (n : ℕ) (t : TypeExpr) :
    s.followAlias (n + 1) t = (s.aliasTarget? (s.followAlias n t)).getD (s.followAlias n t) := by
  induction n generalizing t with
  | zero =>
    unfold followAlias
    cases s.aliasTarget? t <;> simp [followAlias]
  | succ n ih =>
    rw [followAlias]
    cases htarget : s.aliasTarget? t with
    | none => simp [followAlias, htarget]
    | some target => simpa [followAlias, htarget] using ih target

theorem followAlias_of_alias?_eq_none {n : ℕ} (h : s.alias? (s.followAlias n t) = none) :
    s.followAlias (n + 1) t = s.followAlias n t := by
  rw [followAlias_succ, aliasTarget?_eq_none_iff.mpr h, Option.getD_none]

/-- As long as the chain goes on, another step is made. -/
theorem step_followAlias {n : ℕ} (h : s.alias? (s.followAlias n t) ≠ none) :
    s.followAlias (n + 1) t ∈ s.aliasTarget? (s.followAlias n t) := by
  obtain ⟨a, ha⟩ := Option.ne_none_iff_exists'.mp h
  obtain ⟨target, -, htarget⟩ := exists_aliasTarget? ha
  rw [followAlias_succ, htarget, Option.getD_some]
  rfl

theorem reaches_followAlias (s : Schema) (n : ℕ) (t : TypeExpr) :
    Reaches s.aliasTarget? t (s.followAlias n t) := by
  induction n with
  | zero => exact .refl
  | succ n ih =>
    by_cases h : s.alias? (s.followAlias n t) = none
    · rwa [followAlias_of_alias?_eq_none h]
    · exact ih.tail (step_followAlias h)

theorem alias?_ne_none_of_le {i n : ℕ} (hi : i ≤ n) (h : s.alias? (s.followAlias n t) ≠ none) :
    s.alias? (s.followAlias i t) ≠ none := by
  induction n, hi using Nat.le_induction with
  | base => exact h
  | succ n hi ih =>
    refine ih fun hnone => h ?_
    rwa [followAlias_of_alias?_eq_none hnone]

theorem reaches₁_followAlias {i j : ℕ} (hij : i < j)
    (h : s.alias? (s.followAlias j t) ≠ none) :
    Reaches₁ s.aliasTarget? (s.followAlias i t) (s.followAlias j t) := by
  induction j, hij using Nat.le_induction with
  | base => exact .single (step_followAlias (alias?_ne_none_of_le (Nat.le_succ i) h))
  | succ j hij ih =>
    have hj := alias?_ne_none_of_le (Nat.le_succ j) h
    exact (ih hj).tail (step_followAlias hj)

/-- A chain that is cut off has named more aliases than there are entries. -/
theorem revisits_of_alias?_resolveAlias (h : s.alias? (s.resolveAlias t) ≠ none) :
    s.Revisits t := by
  let met : Finset (Option Entry) := (s.entries.map some).toFinset
  have hcard : met.card < (Finset.range (s.entries.length + 1)).card := by
    have hle := List.toFinset_card_le (s.entries.map some)
    rw [List.length_map] at hle
    rw [Finset.card_range]
    exact Nat.lt_succ_of_le hle
  have hnamed : ∀ i ∈ Finset.range (s.entries.length + 1),
      s.alias? (s.followAlias i t) ≠ none := fun i hi =>
    alias?_ne_none_of_le (Nat.le_of_lt_succ (Finset.mem_range.mp hi)) h
  have hmet : ∀ i ∈ Finset.range (s.entries.length + 1), s.alias? (s.followAlias i t) ∈ met := by
    intro i hi
    obtain ⟨a, ha⟩ := Option.ne_none_iff_exists'.mp (hnamed i hi)
    rw [ha, List.mem_toFinset]
    exact List.mem_map_of_mem (mem_entries_of_alias? ha)
  -- Whichever of the two places comes first, the chain leads from it to the other.
  have hrevisits : ∀ i ∈ Finset.range (s.entries.length + 1),
      ∀ j ∈ Finset.range (s.entries.length + 1), i < j →
      s.alias? (s.followAlias i t) = s.alias? (s.followAlias j t) → s.Revisits t := by
    intro i hi j hj hij heq
    obtain ⟨a, ha⟩ := Option.ne_none_iff_exists'.mp (hnamed i hi)
    exact ⟨a, s.followAlias i t, s.followAlias j t, reaches_followAlias s i t, ha,
      reaches₁_followAlias hij (hnamed j hj), heq ▸ ha⟩
  obtain ⟨i, hi, j, hj, hij, heq⟩ := Finset.exists_ne_map_eq_of_card_lt_of_maps_to hcard hmet
  rcases Nat.lt_or_gt_of_ne hij with hlt | hlt
  · exact hrevisits i hi j hj hlt heq
  · exact hrevisits j hj i hi hlt heq.symm

/-! ### Chains without an end -/

/-- From a type to which the chain comes back, it comes back to every type that it meets. -/
theorem reaches₁_self_of_reaches {x y : TypeExpr} (h : Reaches₁ s.aliasTarget? x x)
    (hxy : Reaches s.aliasTarget? x y) : Reaches₁ s.aliasTarget? y y := by
  induction hxy with
  | refl => exact h
  | @tail y z _ hz ih =>
    obtain ⟨z', hz', hback⟩ := TransGen.head'_iff.mp ih
    obtain rfl : z = z' := Option.some.inj (hz.symm.trans hz')
    exact TransGen.tail' hback hz

/-- What an alias stands for is met again when the alias is. -/
theorem Revisits.exists_circle (h : s.Revisits t) :
    ∃ x, Reaches s.aliasTarget? t x ∧ Reaches₁ s.aliasTarget? x x := by
  obtain ⟨a, u, v, htu, hu, huv, hv⟩ := h
  obtain ⟨target, hshape, hnext⟩ := exists_aliasTarget? hu
  have hlast : s.aliasTarget? v = some target := aliasTarget?_eq_some_iff.mpr ⟨a, hv, hshape⟩
  obtain ⟨first, hfirst, hback⟩ := TransGen.head'_iff.mp huv
  obtain rfl : target = first := Option.some.inj (hnext.symm.trans hfirst)
  exact ⟨target, htu.tail hnext, TransGen.tail' hback hlast⟩

theorem Revisits.alias?_ne_none (h : s.Revisits t) (hu : Reaches s.aliasTarget? t u) :
    s.alias? u ≠ none := by
  obtain ⟨x, htx, hx⟩ := h.exists_circle
  have hgoes : ∀ y, Reaches₁ s.aliasTarget? y y → s.aliasTarget? y ≠ none := by
    intro y hy hnone
    obtain ⟨z, hz, -⟩ := TransGen.head'_iff.mp hy
    rw [hnone] at hz
    cases hz
  rw [ne_eq, ← aliasTarget?_eq_none_iff]
  rcases reaches_total htx hu with hxu | hux
  · exact hgoes u (reaches₁_self_of_reaches hx hxu)
  · rcases ReflTransGen.cases_head hux with rfl | ⟨z, hz, -⟩
    · exact hgoes u hx
    · intro hnone
      rw [hnone] at hz
      cases hz

theorem alias?_resolveAlias_eq_none_iff (s : Schema) (t : TypeExpr) :
    s.alias? (s.resolveAlias t) = none ↔ ¬ s.Revisits t := by
  constructor
  · intro hfinal h
    exact h.alias?_ne_none (reaches_followAlias s _ t) hfinal
  · intro h
    by_contra hne
    exact h (revisits_of_alias?_resolveAlias hne)

theorem followAlias_of_final (n : ℕ) (h : s.alias? t = none) : s.followAlias n t = t := by
  cases n with
  | zero => rfl
  | succ n => simp [followAlias, aliasTarget?_eq_none_iff.mpr h]

/-- Following aliases leads along the chain of aliases. Where the chain has an end, it is reached,
and following aliases from there changes nothing. Otherwise the chain comes to an alias twice, and
all its types name aliases. -/
theorem resolveAlias_ends_chain (s : Schema) (t : TypeExpr) :
    Reaches s.aliasTarget? t (s.resolveAlias t) ∧
      (s.alias? (s.resolveAlias t) = none ∧
          s.resolveAlias (s.resolveAlias t) = s.resolveAlias t ∧ ¬ s.Revisits t ∨
        s.Revisits t ∧ ∀ u, Reaches s.aliasTarget? t u → s.alias? u ≠ none) := by
  refine ⟨reaches_followAlias s _ t, ?_⟩
  by_cases h : s.Revisits t
  · exact .inr ⟨h, fun u hu => h.alias?_ne_none hu⟩
  · have hfinal := (alias?_resolveAlias_eq_none_iff s t).mpr h
    exact .inl ⟨hfinal, followAlias_of_final _ hfinal, h⟩

end TreeSchema.Schema

namespace TreeSchema.Chains

open Schema

/-- A chain through all entries. -/
def line : Schema :=
  ⟨[{ name := "C", displayName := "C", shape := .aliasOf (.named "u8") },
    { name := "A", displayName := "A", shape := .aliasOf (.named "B") },
    { name := "B", displayName := "B", shape := .aliasOf (.named "C") }], by decide⟩

/-- A chain that goes round. -/
def circle : Schema :=
  ⟨[{ name := "L", displayName := "L", shape := .aliasOf (.named "M") },
    { name := "M", displayName := "M", shape := .aliasOf (.named "L") }], by decide⟩

theorem line_ends_circle_revisits : line.resolveAlias (.named "A") = .named "u8" ∧
    ¬ line.Revisits (.named "A") ∧ circle.Revisits (.named "L") := by
  refine ⟨by decide, ?_, ?_⟩
  · obtain ⟨-, ⟨-, -, h⟩ | ⟨-, h⟩⟩ := resolveAlias_ends_chain line (.named "A")
    · exact h
    · exact absurd (by decide) (h _ (reaches_followAlias line 3 (.named "A")))
  · obtain ⟨-, ⟨h, -, -⟩ | ⟨h, -⟩⟩ := resolveAlias_ends_chain circle (.named "L")
    · exact absurd h (by decide)
    · exact h

end TreeSchema.Chains
