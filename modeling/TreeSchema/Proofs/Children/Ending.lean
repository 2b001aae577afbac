import Mathlib.Combinatorics.Pigeonhole
import TreeSchema.Proofs.Children.Plan

/-!
# Types that never end

An access path is found by taking wrappers off a type, one after another, with aliases replaced
before each. Only so many types stand inside wrappers as the type and all aliases have wrappers.
A walk that meets more of them comes back to one it has met, and goes on for ever.
-/

namespace TreeSchema

open Checked

namespace TypeExpr

/-- The types inside the wrappers of a type. -/
def parts : TypeExpr → List TypeExpr
  | wrap _ inner => inner :: inner.parts
  | _ => []

theorem length_parts (t : TypeExpr) : t.parts.length = t.depth := by
  induction t with
  | position => rfl
  | named name => rfl
  | wrap w inner ih => simp [parts, depth, ih]

theorem mem_parts_of_wrap {t inner : TypeExpr} {w : Wrapper} (h : .wrap w inner ∈ t.parts) :
    inner ∈ t.parts := by
  induction t with
  | position => simp [parts] at h
  | named name => simp [parts] at h
  | wrap w' t ih =>
    rcases List.mem_cons.mp h with rfl | h
    · simp [parts]
    · exact List.mem_cons_of_mem _ (ih h)

end TypeExpr

namespace Schema

variable {s : Schema} {t x y : TypeExpr}

/-- Aliases lead from a type to itself or to what some alias stands for. -/
theorem followAlias_cases (s : Schema) (n : ℕ) (t : TypeExpr) :
    s.followAlias n t = t ∨ ∃ a ∈ s.entries, a.shape = .aliasOf (s.followAlias n t) := by
  induction n generalizing t with
  | zero => exact .inl rfl
  | succ n ih =>
    unfold followAlias
    cases h : s.aliasTarget? t with
    | none => exact .inl rfl
    | some target =>
      rcases ih target with heq | halias
      · exact .inr (by simpa only [heq] using aliasTarget?_eq_some h)
      · exact .inr halias

/-- The type inside the outermost wrapper, with aliases replaced. -/
def inner? (s : Schema) (t : TypeExpr) : Option TypeExpr :=
  match s.resolveAlias t with
  | .wrap _ inner => some inner
  | _ => none

/-- The type inside `k` wrappers. -/
def within (s : Schema) : ℕ → TypeExpr → Option TypeExpr
  | 0, t => some t
  | k + 1, t => (s.inner? t).bind (s.within k)

/-- However many wrappers are taken off, there is another one. -/
def Endless (s : Schema) (t : TypeExpr) : Prop := ∀ k, s.within k t ≠ none

theorem within_add (s : Schema) (a b : ℕ) (t : TypeExpr) :
    s.within (a + b) t = (s.within a t).bind (s.within b) := by
  induction a generalizing t with
  | zero => simp [within]
  | succ a ih =>
    rw [Nat.succ_add, within, within, Option.bind_assoc]
    exact congrArg _ (funext ih)

theorem within_ne_none_of_le {k m : ℕ} (h : s.within m t ≠ none) (hk : k ≤ m) :
    s.within k t ≠ none := by
  obtain ⟨b, rfl⟩ := Nat.exists_eq_add_of_le hk
  rw [within_add] at h
  intro hnone
  exact h (by rw [hnone]; rfl)

/-- What stands inside the wrappers of aliases. -/
def aliasParts (s : Schema) : List TypeExpr :=
  s.entries.flatMap fun e => match e.shape with
    | .aliasOf target => target.parts
    | _ => []

theorem length_aliasParts (s : Schema) : s.aliasParts.length = Access.aliasDepth s := by
  unfold aliasParts Access.aliasDepth
  rw [List.length_flatMap, List.sum]
  congr 1
  refine List.map_congr_left fun e _ => ?_
  cases e.shape with
  | aliasOf target => exact target.length_parts
  | product fields => rfl
  | sum variants => rfl

/-- Taking off a wrapper leads to a part of the type or of an alias. -/
theorem mem_parts_of_inner? (hx : x = t ∨ x ∈ t.parts ++ s.aliasParts)
    (h : s.inner? x = some y) : y ∈ t.parts ++ s.aliasParts := by
  unfold inner? at h
  split at h
  · next w inner hw =>
    cases h
    rcases followAlias_cases s s.entries.length x with hsame | ⟨a, ha, hshape⟩
    · obtain rfl : x = .wrap w y := hsame.symm.trans hw
      rcases hx with rfl | hx
      · simp [TypeExpr.parts]
      · rcases List.mem_append.mp hx with hx | hx
        · exact List.mem_append_left _ (TypeExpr.mem_parts_of_wrap hx)
        · obtain ⟨e, he, hxe⟩ := List.mem_flatMap.mp hx
          refine List.mem_append_right _ (List.mem_flatMap.mpr ⟨e, he, ?_⟩)
          split at hxe
          · exact TypeExpr.mem_parts_of_wrap hxe
          · simp at hxe
    · refine List.mem_append_right _ (List.mem_flatMap.mpr ⟨a, ha, ?_⟩)
      have htarget : a.shape = .aliasOf (.wrap w y) := hshape.trans (congrArg _ hw)
      simp [htarget, TypeExpr.parts]
  · cases h

theorem mem_parts_of_within {k : ℕ} (h : s.within (k + 1) t = some x) :
    x ∈ t.parts ++ s.aliasParts := by
  induction k generalizing x with
  | zero =>
    have hx : s.inner? t = some x := by simpa [within] using h
    exact mem_parts_of_inner? (.inl rfl) hx
  | succ k ih =>
    rw [within_add s (k + 1) 1, Option.bind_eq_some_iff] at h
    obtain ⟨y, hy, hx⟩ := h
    exact mem_parts_of_inner? (.inr (ih hy)) (by simpa [within] using hx)

/-- From a type that is met twice on, everything is met again and again. -/
theorem endless_of_within_eq {a b : ℕ} (hab : a < b) (hb : s.within b t ≠ none)
    (heq : s.within a t = s.within b t) : s.Endless t := by
  intro k
  induction k using Nat.strong_induction_on with
  | _ k ih =>
    by_cases hk : k ≤ b
    · exact within_ne_none_of_le hb hk
    · obtain ⟨m, rfl⟩ := Nat.exists_eq_add_of_le (Nat.le_of_not_le hk)
      rw [within_add, ← heq, ← within_add]
      exact ih (a + m) (by omega)

/-- A walk through more wrappers than there are never ends. -/
theorem endless_of_within (h : s.within (t.depth + Access.aliasDepth s + 1) t ≠ none) :
    s.Endless t := by
  let N := t.depth + Access.aliasDepth s
  let met : Finset (Option TypeExpr) := ((t.parts ++ s.aliasParts).map some).toFinset
  have hcard : met.card < (Finset.range (N + 1)).card := by
    have hle := List.toFinset_card_le ((t.parts ++ s.aliasParts).map some)
    rw [List.length_map, List.length_append, TypeExpr.length_parts, length_aliasParts] at hle
    rw [Finset.card_range]
    exact Nat.lt_succ_of_le hle
  have hmet : ∀ i ∈ Finset.range (N + 1), s.within (i + 1) t ∈ met := by
    intro i hi
    have hi' : i + 1 ≤ N + 1 := Nat.succ_le_of_lt (Finset.mem_range.mp hi)
    obtain ⟨x, hx⟩ := Option.ne_none_iff_exists'.mp (within_ne_none_of_le h hi')
    rw [hx, List.mem_toFinset]
    exact List.mem_map_of_mem (mem_parts_of_within hx)
  obtain ⟨i, hi, j, hj, hij, heq⟩ :=
    Finset.exists_ne_map_eq_of_card_lt_of_maps_to hcard hmet
  have hle : ∀ m ∈ Finset.range (N + 1), s.within (m + 1) t ≠ none := fun m hm =>
    within_ne_none_of_le h (Nat.succ_le_of_lt (Finset.mem_range.mp hm))
  rcases Nat.lt_or_gt_of_ne hij with hlt | hlt
  · exact endless_of_within_eq (Nat.succ_lt_succ hlt) (hle j hj) heq
  · exact endless_of_within_eq (Nat.succ_lt_succ hlt) (hle i hi) heq.symm

end Schema

namespace Access

variable {s : Schema} {e : Entry} {field : String} {t : TypeExpr} {f : Error}

theorem checkNode_error {name : String} (h : checkNode s e field name = .error f) :
    ∃ reason, f = .badUse e.name field reason := by
  unfold checkNode at h
  split at h
  · cases h; exact ⟨_, rfl⟩
  · split at h
    · cases h; exact ⟨_, rfl⟩
    · cases h

/-- The search for a path fails at a leaf that is no node, or when it runs out of steps. -/
theorem ofType_error {k : ℕ} (h : ofType s e field k t = .error f) :
    (∃ reason, f = .badUse e.name field reason) ∨
      (f = .endless e.name field ∧ s.within k t ≠ none) := by
  induction k generalizing t with
  | zero => cases h; exact .inr ⟨rfl, by simp [Schema.within]⟩
  | succ k ih =>
    unfold ofType at h
    split at h
    · next w inner hw =>
      rcases ih (map_eq_error_iff.mp h) with hbad | ⟨hf, hk⟩
      · exact .inl hbad
      · refine .inr ⟨hf, ?_⟩
        simpa [Schema.within, Schema.inner?, hw] using hk
    · cases h; exact .inl ⟨_, rfl⟩
    · exact .inl (checkNode_error h)

/-- A path that is not found: a leaf is no node, or there is no leaf. -/
theorem find_error (h : find s e field t = .error f) :
    (∃ reason, f = .badUse e.name field reason) ∨ (f = .endless e.name field ∧ s.Endless t) := by
  rcases ofType_error h with hbad | ⟨hf, hk⟩
  · exact .inl hbad
  · exact .inr ⟨hf, Schema.endless_of_within hk⟩

end Access

end TreeSchema
