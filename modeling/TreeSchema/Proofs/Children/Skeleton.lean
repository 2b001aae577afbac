import TreeSchema.Proofs.Children.Ending
import TreeSchema.Proofs.Schema.Expansion

/-!
# Access paths are wrappers

The search for an access path replaces aliases as it meets them, between the wrappers. What it
finds are the wrappers of the type with all aliases replaced, if what is inside them is a name of
kinds of the view.
-/

namespace TreeSchema

open Checked

/-- A name that refers to something, and to kinds of the view only. -/
def Schema.NamesKinds (s : Schema) (t : TypeExpr) : Prop :=
  ∃ n, t = .named n ∧ s.resolve n ≠ [] ∧ ∀ target ∈ s.resolve n, target.participates = true

namespace Access

variable {s : Schema} {e : Entry} {field : String} {t u : TypeExpr}

/-- The path of a type in which no alias is left. -/
def ofExpanded (s : Schema) (e : Entry) (field : String) : TypeExpr → Except Error Access
  | .wrap w inner => (ofExpanded s e field inner).map (w :: ·)
  | .position => .error (.badUse e.name field .childPosition)
  | .named name => checkNode s e field name

theorem ofExpanded_eq_ok_iff {a : Access} :
    ofExpanded s e field u = .ok a ↔ s.NamesKinds u.core ∧ a = u.wrappers := by
  induction u generalizing a with
  | position => simp [ofExpanded, Schema.NamesKinds, TypeExpr.core]
  | named name =>
    rw [ofExpanded, checkNode_eq_ok_iff, and_comm]
    simp [Schema.NamesKinds, TypeExpr.core, TypeExpr.wrappers]
  | wrap w inner ih =>
    rw [ofExpanded, map_eq_ok_iff]
    simp [ih, TypeExpr.core, TypeExpr.wrappers, eq_comm]

theorem ofExpanded_eq_error {f : Error} (h : ofExpanded s e field u = .error f) :
    ∃ reason, f = .badUse e.name field reason := by
  induction u with
  | position => cases h; exact ⟨_, rfl⟩
  | named name => exact checkNode_error h
  | wrap w inner ih => exact ih (map_eq_error_iff.mp h)

/-- There are as many types inside the wrappers as the expansion has wrappers. -/
theorem within_eq_none_iff (hs : s.Acyclic) (hu : u ∈ s.expansion t) {k : ℕ} :
    s.within k t = none ↔ u.depth < k := by
  induction k generalizing t u with
  | zero => simp [Schema.within]
  | succ k ih =>
    rcases hs.expansion_cases hu with ⟨w, inner, v, hr, hv, rfl⟩ | ⟨hr, hdepth⟩
    · simp [Schema.within, Schema.inner?, hr, ih hv, TypeExpr.depth]
    · cases u with
      | position | named => simp [Schema.within, Schema.inner?, hr, TypeExpr.depth]
      | wrap w inner => cases hdepth

/-- The search takes a step for each wrapper of the expansion and one for what is inside. -/
theorem ofType_of_expansion (hs : s.Acyclic) (hu : u ∈ s.expansion t) {k : ℕ} (hk : u.depth < k) :
    ofType s e field k t = ofExpanded s e field u := by
  induction k generalizing t u with
  | zero => cases hk
  | succ k ih =>
    unfold ofType
    rcases hs.expansion_cases hu with ⟨w, inner, v, hr, hv, rfl⟩ | ⟨hr, hdepth⟩
    · simp only [hr, ofExpanded, ih hv (Nat.lt_of_succ_lt_succ hk)]
    · rw [hr]
      cases u with
      | position => rfl
      | named name => rfl
      | wrap w inner => cases hdepth

/-- A type with an expansion has fewer wrappers than the search has steps. -/
theorem depth_lt_of_expansion (hs : s.Acyclic) (hu : u ∈ s.expansion t) :
    u.depth < t.depth + aliasDepth s + 1 := by
  rw [← within_eq_none_iff hs hu]
  by_contra hmore
  have hend : s.within (u.depth + 1) t = none := (within_eq_none_iff hs hu).mpr (Nat.lt_succ_self _)
  exact Schema.endless_of_within hmore _ hend

theorem find_of_expansion (hs : s.Acyclic) (hu : u ∈ s.expansion t) :
    find s e field t = ofExpanded s e field u :=
  ofType_of_expansion hs hu (depth_lt_of_expansion hs hu)

/-- Where no alias comes back to itself, a type has an expansion, and the search for a path ends
after one step more than that has wrappers, whatever steps are allowed beyond. It finds a path if
the expansion names kinds of the view, which is then the wrappers of the expansion, and otherwise
reports a bad use of the field by the entry. -/
theorem find_wrapper_skeleton (hs : s.Acyclic) (e : Entry) (field : String) (t : TypeExpr) :
    ∃ u ∈ s.expansion t,
      (∀ k, u.depth < k → ofType s e field k t = find s e field t) ∧
      (∀ a, find s e field t = .ok a ↔ s.NamesKinds u.core ∧ a = u.wrappers) ∧
      (¬ s.NamesKinds u.core →
        ∃ reason, find s e field t = .error (.badUse e.name field reason)) := by
  obtain ⟨u, hu⟩ := hs.exists_mem_expansion t
  have hfind : find s e field t = ofExpanded s e field u := find_of_expansion hs hu
  refine ⟨u, hu, fun k hk => ?_, fun a => ?_, fun hno => ?_⟩
  · rw [hfind, ofType_of_expansion hs hu hk]
  · rw [hfind, ofExpanded_eq_ok_iff]
  · rw [hfind]
    cases hout : ofExpanded s e field u with
    | ok a => exact absurd (ofExpanded_eq_ok_iff.mp hout).1 hno
    | error f =>
      obtain ⟨reason, rfl⟩ := ofExpanded_eq_error hout
      exact ⟨reason, rfl⟩

end Access

namespace Nested

/-! An alias for an alias for wrappers around an alias, and one for a type that is no kind. -/

def loop : Entry :=
  { name := "Loop", displayName := "Loop",
    shape := .product [("body", .wrap .box (.named "Inner")), ("label", .named "Label")] }

def schema : Schema :=
  ⟨[loop,
    { name := "Inner", displayName := "Inner", shape := .aliasOf (.named "Body") },
    { name := "Body", displayName := "Body", shape := .aliasOf (.wrap .optional (.named "Block")) },
    { name := "Block", displayName := "Block",
      shape := .aliasOf (.wrap .sequence (.named "Loop")) },
    { name := "Label", displayName := "Label", shape := .aliasOf (.named "String") }], by decide⟩

/-- Each alias stands for a type with aliases after it in the list. -/
theorem acyclic_schema : schema.Acyclic := by
  refine Schema.acyclic_of_rank
    (fun a => schema.entries.length - (schema.entries.map Entry.name).idxOf a.name) ?_
  decide

theorem loop_wrapper_skeleton :
    Access.find schema loop "body" (.wrap .box (.named "Inner")) =
        .ok [.box, .optional, .sequence] ∧
      ∃ reason, Access.find schema loop "label" (.named "Label") =
        .error (.badUse "Loop" "label" reason) := by
  have hbody : schema.expansion (.wrap .box (.named "Inner")) =
      .some (.wrap .box (.wrap .optional (.wrap .sequence (.named "Loop")))) := by
    rw [Schema.expansion_of_some (by rfl), Schema.expansion_of_some (by rfl),
      Schema.expansion_of_some (by rfl), Schema.expansion_of_none (by rfl)]
    rfl
  have hlabel : schema.expansion (.named "Label") = .some (.named "String") := by
    rw [Schema.expansion_of_some (by rfl), Schema.expansion_of_none (by rfl)]
    rfl
  constructor
  · obtain ⟨u, hu, -, hok, -⟩ :=
      Access.find_wrapper_skeleton acyclic_schema loop "body" (.wrap .box (.named "Inner"))
    rw [hbody, Part.mem_some_iff] at hu
    subst hu
    exact (hok _).mpr ⟨⟨"Loop", rfl, by decide, by decide⟩, rfl⟩
  · obtain ⟨u, hu, -, -, hbad⟩ :=
      Access.find_wrapper_skeleton acyclic_schema loop "label" (.named "Label")
    rw [hlabel, Part.mem_some_iff] at hu
    subst hu
    refine hbad ?_
    rintro ⟨n, hn, hne, -⟩
    cases hn
    exact hne (by decide)

end Nested

end TreeSchema
