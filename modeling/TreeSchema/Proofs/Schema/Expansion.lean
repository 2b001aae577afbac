import Mathlib.Computability.StateTransition
import Mathlib.Order.WellFoundedSet
import TreeSchema.Proofs.Schema.Lookup
import TreeSchema.Proofs.TypeExpr

/-!
# Types without aliases

A name that refers to one alias and to nothing else can be replaced by what the alias stands for.
Unless an alias comes back to itself that way, every type has one expansion in which no alias is
left, and following aliases at the head of a type is a part of the way to it.
-/

namespace TreeSchema

namespace TypeExpr

/-- A type with another one in the place of its core. -/
def withCore : TypeExpr → TypeExpr → TypeExpr
  | wrap w inner, r => wrap w (inner.withCore r)
  | _, r => r

theorem core_withCore (t r : TypeExpr) : (t.withCore r).core = r.core := by
  induction t with
  | position => rfl
  | named name => rfl
  | wrap w inner ih => exact ih

theorem withCore_withCore (t a b : TypeExpr) :
    (t.withCore a).withCore b = t.withCore (a.withCore b) := by
  induction t with
  | position => rfl
  | named name => rfl
  | wrap w inner ih => exact congrArg (wrap w) ih

end TypeExpr

namespace Schema

open Relation StateTransition

variable {s : Schema} {t u : TypeExpr}

/-! ### Aliases that lead to aliases -/

/-- The alias that a type names and that the name refers to alone. -/
def alias? (s : Schema) : TypeExpr → Option Entry
  | .named name =>
    match s.resolve name with
    | [e] => if e.isAlias then some e else none
    | _ => none
  | _ => none

/-- The alias at the core of what an alias stands for. -/
def nextAlias? (s : Schema) (a : Entry) : Option Entry :=
  match a.shape with
  | .aliasOf target => s.alias? target.core
  | _ => none

/-- No alias comes back to itself, however often aliases are replaced. -/
def Acyclic (s : Schema) : Prop :=
  ∀ a ∈ s.entries, ¬ Reaches₁ s.nextAlias? a a

theorem aliasTarget?_eq_some_iff {target : TypeExpr} : s.aliasTarget? t = some target ↔
    ∃ a, s.alias? t = some a ∧ a.shape = .aliasOf target := by
  cases t with
  | position => simp [aliasTarget?, alias?]
  | wrap w inner => simp [aliasTarget?, alias?]
  | named name =>
    rcases hr : s.resolve name with _ | ⟨e, _ | ⟨_, _⟩⟩
    · simp [aliasTarget?, alias?, hr]
    · cases hs : e.shape <;> simp [aliasTarget?, alias?, hr, Entry.isAlias, hs]
    · simp [aliasTarget?, alias?, hr]

theorem mem_entries_of_alias? {a : Entry} (h : s.alias? t = some a) : a ∈ s.entries := by
  cases t with
  | position => cases h
  | wrap w inner => cases h
  | named name =>
    simp only [alias?] at h
    split at h
    · next e he =>
      split at h
      · cases h
        exact mem_entries_of_mem_resolve (he ▸ List.mem_singleton.mpr rfl)
      · cases h
    · cases h

theorem core_of_alias? {a : Entry} (h : s.alias? t = some a) : t.core = t := by
  cases t with
  | wrap w inner => cases h
  | position => rfl
  | named name => rfl

theorem nextAlias?_of_shape {a : Entry} {target : TypeExpr} (h : a.shape = .aliasOf target) :
    s.nextAlias? a = s.alias? target.core := by
  simp only [nextAlias?, h]

theorem mem_entries_of_nextAlias? {a b : Entry} (h : s.nextAlias? a = some b) :
    b ∈ s.entries := by
  unfold nextAlias? at h
  split at h
  · exact mem_entries_of_alias? h
  · cases h

theorem Acyclic.not_reaches (hs : s.Acyclic) (a : Entry) :
    ¬ Reaches₁ s.nextAlias? a a := by
  intro h
  obtain ⟨b, -, hb⟩ := TransGen.tail'_iff.mp h
  exact hs a (mem_entries_of_nextAlias? hb) h

/-- Aliases that can be told apart by a number which goes down do not come back. -/
theorem acyclic_of_rank (rank : Entry → ℕ)
    (h : ∀ a ∈ s.entries, ∀ b ∈ s.nextAlias? a, rank b < rank a) : s.Acyclic := by
  intro a ha hcycle
  have hlt : ∀ b, Reaches₁ s.nextAlias? a b → rank b < rank a := by
    intro b hab
    induction hab with
    | single hstep => exact h a ha _ hstep
    | @tail b c hab hbc ih =>
      obtain ⟨x, -, hb⟩ := TransGen.tail'_iff.mp hab
      exact (h b (mem_entries_of_nextAlias? hb) _ hbc).trans ih
  exact (hlt a hcycle).false

/-- After `k` aliases another one follows only if there is a chain of that many. -/
theorem exists_chain {k : ℕ} (h : s.aliasTarget? (s.followAlias k t) ≠ none) :
    ∃ a chain, s.alias? t = some a ∧ (a :: chain).IsChain (fun a b => b ∈ s.nextAlias? a) ∧
      (∀ b ∈ a :: chain, b ∈ s.entries) ∧ chain.length = k := by
  induction k generalizing t with
  | zero =>
    obtain ⟨target, htarget⟩ := Option.ne_none_iff_exists'.mp h
    obtain ⟨a, ha, -⟩ := aliasTarget?_eq_some_iff.mp htarget
    exact ⟨a, [], ha, .singleton a, by simpa using mem_entries_of_alias? ha, rfl⟩
  | succ k ih =>
    unfold followAlias at h
    cases htarget : s.aliasTarget? t with
    | none => simp [htarget] at h
    | some target =>
      rw [htarget] at h
      obtain ⟨a, ha, hshape⟩ := aliasTarget?_eq_some_iff.mp htarget
      obtain ⟨b, chain, hb, hchain, hmem, hlen⟩ := ih h
      have hab : s.nextAlias? a = some b := by
        rw [nextAlias?_of_shape hshape, core_of_alias? hb, hb]
      refine ⟨a, b :: chain, ha, .cons_cons hab hchain, ?_, by simp [hlen]⟩
      exact List.forall_mem_cons.mpr ⟨mem_entries_of_alias? ha, hmem⟩

/-- A chain of aliases that do not come back is no longer than the list of entries, so as many steps
are enough to follow all of them. -/
theorem Acyclic.aliasTarget?_resolveAlias (hs : s.Acyclic) (t : TypeExpr) :
    s.aliasTarget? (s.resolveAlias t) = none := by
  by_contra h
  obtain ⟨a, chain, -, hchain, hmem, hlen⟩ := exists_chain h
  have hpair : (a :: chain).Pairwise (TransGen fun a b => b ∈ s.nextAlias? a) :=
    List.IsChain.pairwise (hchain.imp fun _ _ => TransGen.single)
  have hnodup : (a :: chain).Nodup := by
    refine hpair.imp ?_
    rintro x _ hx rfl
    exact hs.not_reaches x hx
  have hle := (hnodup.subperm hmem).length_le
  rw [List.length_cons, hlen] at hle
  omega

/-- What holds of types without an alias at their core, and of a type if it holds of what the alias
at its core stands for, holds of all types. -/
theorem Acyclic.induction (hs : s.Acyclic) {P : TypeExpr → Prop}
    (final : ∀ t, s.aliasTarget? t.core = none → P t)
    (step : ∀ t target, s.aliasTarget? t.core = some target → P target → P t) (t : TypeExpr) :
    P t := by
  let below : Entry → Entry → Prop := fun b a => Reaches₁ s.nextAlias? a b
  have hstrict : IsStrictOrder Entry below :=
    { irrefl := hs.not_reaches, trans := fun _ _ _ hab hbc => hbc.trans hab }
  have hwf : {a | a ∈ s.entries}.WellFoundedOn below := s.entries.finite_toSet.wellFoundedOn
  have halias : ∀ a ∈ s.entries, ∀ target, a.shape = .aliasOf target → P target := by
    intro a ha
    refine hwf.induction (P := fun a => ∀ target, a.shape = .aliasOf target → P target) ha ?_
    intro a ha ih target hshape
    cases hcore : s.aliasTarget? target.core with
    | none => exact final target hcore
    | some next =>
      obtain ⟨b, hb, hnext⟩ := aliasTarget?_eq_some_iff.mp hcore
      refine step target next hcore (ih b (mem_entries_of_alias? hb) ?_ next hnext)
      exact .single ((nextAlias?_of_shape hshape).trans hb)
  cases hcore : s.aliasTarget? t.core with
  | none => exact final t hcore
  | some target =>
    obtain ⟨a, ha, hshape⟩ := aliasTarget?_eq_some_iff.mp hcore
    exact step t target hcore (halias a (mem_entries_of_alias? ha) target hshape)

/-! ### Expansions -/

/-- The alias at the core of a type replaced. -/
def expandCore? (s : Schema) (t : TypeExpr) : Option TypeExpr :=
  (s.aliasTarget? t.core).map t.withCore

/-- A type with aliases replaced until none is left; there is none if that never ends. -/
def expansion (s : Schema) (t : TypeExpr) : Part TypeExpr := eval s.expandCore? t

theorem expansion_of_some (h : s.expandCore? t = some u) : s.expansion t = s.expansion u :=
  reaches_eval (.single h)

theorem expansion_of_none (h : s.aliasTarget? t.core = none) : s.expansion t = .some t := by
  have hfinal : s.expandCore? t = none := by rw [expandCore?, h, Option.map_none]
  exact Part.eq_some_iff.mpr (mem_eval.mpr ⟨.refl, hfinal⟩)

theorem expandCore?_withCore (t x : TypeExpr) :
    s.expandCore? (t.withCore x) = (s.expandCore? x).map t.withCore := by
  unfold expandCore?
  rw [TypeExpr.core_withCore, Option.map_map]
  exact congrArg (Option.map · _) (funext (TypeExpr.withCore_withCore t x))

/-- A core can be expanded on its own. -/
theorem expansion_withCore (t x : TypeExpr) :
    s.expansion (t.withCore x) = (s.expansion x).map t.withCore := by
  refine tr_eval' _ _ _ (fun_respects.mpr fun y => ?_) x
  cases hy : s.expandCore? y with
  | none => simp [FRespects, expandCore?_withCore, hy]
  | some z => exact .single (by simp [expandCore?_withCore, hy])

theorem expansion_wrap (w : Wrapper) (t : TypeExpr) :
    s.expansion (.wrap w t) = (s.expansion t).map (.wrap w) :=
  expansion_withCore (.wrap w .position) t

/-- Every type has an expansion. -/
theorem Acyclic.exists_mem_expansion (hs : s.Acyclic) (t : TypeExpr) : ∃ u, u ∈ s.expansion t := by
  refine hs.induction (P := fun t => ∃ u, u ∈ s.expansion t) (fun t hcore => ?_)
    (fun t target hcore ih => ?_) t
  · exact ⟨t, by simp [expansion_of_none hcore]⟩
  · obtain ⟨u, hu⟩ := ih
    have hstep : s.expandCore? t = some (t.withCore target) := by
      rw [expandCore?, hcore, Option.map_some]
    refine ⟨t.withCore u, ?_⟩
    rw [expansion_of_some hstep, expansion_withCore]
    exact Part.mem_map _ hu

/-- Aliases that are followed at the head of a type are replaced. -/
theorem expansion_followAlias (s : Schema) (k : ℕ) (t : TypeExpr) :
    s.expansion (s.followAlias k t) = s.expansion t := by
  induction k generalizing t with
  | zero => rfl
  | succ k ih =>
    unfold followAlias
    cases htarget : s.aliasTarget? t with
    | none => rfl
    | some target =>
      have hstep : s.expandCore? t = some target := by
        cases t with
        | position => cases htarget
        | wrap w inner => cases htarget
        | named name => simp [expandCore?, TypeExpr.core, TypeExpr.withCore, htarget]
      exact (ih target).trans (expansion_of_some hstep).symm

/-- What the head of a type leads to, with its aliases followed, and how its expansion goes on: the
wrapper is kept and the type inside it expanded, or the type is left as it is. -/
theorem Acyclic.expansion_cases (hs : s.Acyclic) (hu : u ∈ s.expansion t) :
    (∃ w inner v, s.resolveAlias t = .wrap w inner ∧ v ∈ s.expansion inner ∧ u = .wrap w v) ∨
      s.resolveAlias t = u ∧ u.depth = 0 := by
  rw [← expansion_followAlias s s.entries.length t] at hu
  change u ∈ s.expansion (s.resolveAlias t) at hu
  have hfinal := hs.aliasTarget?_resolveAlias t
  cases hr : s.resolveAlias t with
  | wrap w inner =>
    rw [hr, expansion_wrap] at hu
    obtain ⟨v, hv, rfl⟩ := (Part.mem_map_iff _).mp hu
    exact .inl ⟨w, inner, v, rfl, hv, rfl⟩
  | position | named =>
    rw [hr] at hu hfinal
    rw [expansion_of_none hfinal, Part.mem_some_iff] at hu
    exact .inr ⟨hu.symm, by rw [hu]; rfl⟩

end Schema

end TreeSchema
