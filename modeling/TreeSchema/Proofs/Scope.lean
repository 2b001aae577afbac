import TreeSchema.Proofs.Order
import TreeSchema.Proofs.Schema.GateChecks
import TreeSchema.Proofs.TypeExpr
import TreeSchema.Schema.Load

/-!
# The fixed names in scope

The text uses some names that no schema has to declare: the identity and position types, the
traits, and the separated list. This module says exactly for which schemas they are in scope
whichever features are on, and shows schemas that pass all checks without that.
-/

namespace TreeSchema

open Checked

/-- The fixed names that are used on behalf of a kind: the view and the identities use some whenever
there is a kind, the position and the separated lists each one more. -/
def KindPlan.fixedNames (k : KindPlan) : List String :=
  Schema.requiredNames.map Prod.snd ++
    (if k.position.isSome then [Fixed.positionTrait] else []) ++
    if k.entry.shape.types.any (·.wrappers.contains .separated) then [Wrapper.separated.word]
    else []

namespace Schema

variable {s : Schema} {e : Entry} {n : String}

/-- Whenever the entry is there, some entry is written under the name: one that has no gate or the
same gate, or one of two under opposite gates. -/
def Provides (s : Schema) (e : Entry) (n : String) : Prop :=
  (∃ t ∈ s.writtenAs n, t.gate = none ∨ t.gate = e.gate) ∨
    ∃ a ∈ s.writtenAs n, ∃ b ∈ s.writtenAs n,
      (a.gate.any fun x => b.gate.any x.isComplement) = true

instance (s : Schema) (e : Entry) (n : String) : Decidable (s.Provides e n) :=
  inferInstanceAs (Decidable (_ ∨ _))

theorem mem_writtenAs_iff {t : Entry} : t ∈ s.writtenAs n ↔ t ∈ s.entries ∧ t.displayName = n := by
  simp [writtenAs]

theorem exists_enabled_of_provides (h : s.Provides e n) {v : Gate.Valuation}
    (hv : e.enabled v = true) : ∃ t ∈ s.writtenAs n, t.enabled v = true := by
  rcases h with ⟨t, ht, hnone | hsame⟩ | ⟨a, ha, b, hb, hab⟩
  · exact ⟨t, ht, Entry.enabled_of_gate_none hnone v⟩
  · exact ⟨t, ht, by unfold Entry.enabled; rwa [hsame]⟩
  · simp only [Option.any_eq_true] at hab
    obtain ⟨x, hax, y, hby, hxy⟩ := hab
    have hc := Gate.holds_of_isComplement hxy v
    cases hxv : x.holds v with
    | true => exact ⟨a, ha, by rw [Entry.enabled_of_gate_some hax, hxv]⟩
    | false => exact ⟨b, hb, by rw [Entry.enabled_of_gate_some hby, hc, hxv]; rfl⟩

/-- Names are written once, or under opposite gates; so nothing less than `Provides` is enough. -/
theorem provides_of_exists_enabled (hnames : s.checkNames = .ok ())
    (h : ∀ v, e.enabled v = true → ∃ t ∈ s.writtenAs n, t.enabled v = true) :
    s.Provides e n := by
  obtain ⟨v, hv⟩ := Gate.exists_allows e.gate
  obtain ⟨t, ht, -⟩ := h v hv
  have hshare : mayShare (s.writtenAs n) = true := by
    obtain ⟨hmem, rfl⟩ := mem_writtenAs_iff.mp ht
    exact mayShare_of_checkNames hnames hmem
  match hw : s.writtenAs n, hshare with
  | [a], _ =>
    refine .inl ⟨a, by simp [hw], ?_⟩
    cases hg : a.gate with
    | none => exact .inl rfl
    | some g =>
      right
      -- Were the gates different, the entry could be there without the one that is written.
      by_contra hne
      obtain ⟨v, hv, hoff⟩ := Gate.exists_allows_and_not_holds (Ne.symm hne)
      obtain ⟨b, hb, hbv⟩ := h v hv
      rw [hw, List.mem_singleton] at hb
      rw [hb, Entry.enabled_of_gate_some hg, hoff] at hbv
      cases hbv
  | [a, b], hs =>
    cases hx : a.gate with
    | none => simp [mayShare, hx] at hs
    | some x =>
      cases hy : b.gate with
      | none => simp [mayShare, hx, hy] at hs
      | some y =>
        refine .inr ⟨a, by simp [hw], b, by simp [hw], ?_⟩
        simpa [mayShare, hx, hy] using hs

end Schema

namespace Artifact

variable {s : Schema} {c : Config} {p : Plan}

/-- The paths of all import lines. -/
def importedPaths (s : Schema) (c : Config) : List String := imports s c ++ ["std::ptr::NonNull"]

theorem importLines_eq : importLines (imports s c) =
    (importedPaths s c).map (fun path => .line ("use " ++ path ++ ";")) ++ [.blank] := by
  simp [importLines, importedPaths]

/-- A name is imported, or the name of a type that is there. -/
def InScope (s : Schema) (c : Config) (v : Gate.Valuation) (n : String) : Prop :=
  n ∈ (importedPaths s c).map Name.lastSegment ∨ ∃ t ∈ s.writtenAs n, t.enabled v = true

instance (s : Schema) (c : Config) (v : Gate.Valuation) (n : String) :
    Decidable (InScope s c v n) := inferInstanceAs (Decidable (_ ∨ _))

theorem mem_importedPaths_iff {k : KindPlan} {n : String} (h : n ∈ k.fixedNames) :
    n ∈ (importedPaths s c).map Name.lastSegment ↔ n ∈ importedNames s c := by
  have hne : n ≠ Name.lastSegment "std::ptr::NonNull" := by
    rintro rfl
    unfold KindPlan.fixedNames at h
    split at h <;> split at h <;> revert h <;> decide
  simp [importedPaths, importedNames, hne]

/-- The fixed names are in scope whichever features are on just when each of them is imported or
the written name of entries that are there whenever it is used. -/
theorem fixed_names_in_scope_iff (hp : plan s c = .ok p) :
    (∀ v, ∀ k ∈ p.kinds, k.entry.enabled v = true → ∀ n ∈ k.fixedNames, InScope s c v n) ↔
      ∀ k ∈ p.kinds, ∀ n ∈ k.fixedNames, n ∈ importedNames s c ∨ s.Provides k.entry n := by
  obtain ⟨hcheck, -⟩ := plan_eq_ok_iff.mp hp
  have hnames := (Schema.check_eq_ok_iff.mp hcheck).1
  constructor
  · intro h k hk n hn
    by_cases himp : n ∈ importedNames s c
    · exact .inl himp
    · right
      refine Schema.provides_of_exists_enabled hnames fun v hv => ?_
      refine (h v k hk hv n hn).resolve_left ?_
      rwa [mem_importedPaths_iff hn]
  · intro h v k hk hv n hn
    rcases h k hk n hn with himp | hprov
    · exact .inl ((mem_importedPaths_iff hn).mpr himp)
    · exact .inr (Schema.exists_enabled_of_provides hprov hv)

end Artifact

namespace Scoped

/-! A schema that declares the identity type itself, in one of two ways under opposite gates, and
passes with the default imports. -/

def wide : Entry :=
  { name := "Wide", displayName := "NodeId", shape := .product [("low", .named "u64")],
    hasIdentity := false, gate := some ⟨"wide", false⟩ }

def narrow : Entry :=
  { name := "Narrow", displayName := "NodeId", shape := .product [("low", .named "u32")],
    hasIdentity := false, gate := some ⟨"wide", true⟩ }

def item : Entry :=
  { name := "Item", displayName := "Item",
    shape := .product [("span", .position), ("parts", .wrap .separated (.named "u8"))] }

def schema : Schema := ⟨[wide, narrow, item], by decide⟩

def kinds : List KindPlan :=
  [⟨wide, none, none⟩, ⟨narrow, none, none⟩, ⟨item, some .stored, some (.field "span")⟩]

theorem fixed_names_in_scope : ∃ p, Artifact.plan schema {} = .ok p ∧
    ∀ v, ∀ k ∈ p.kinds, k.entry.enabled v = true →
      ∀ n ∈ k.fixedNames, Artifact.InScope schema {} v n := by
  have hkinds : (Artifact.plan schema {}).map Artifact.Plan.kinds = .ok kinds := by
    decide +kernel
  obtain ⟨p, hp, hk⟩ := map_eq_ok_iff.mp hkinds
  refine ⟨p, hp, (Artifact.fixed_names_in_scope_iff hp).mpr ?_⟩
  rw [hk]
  decide +kernel

end Scoped

/-- A draft that gives an artifact, in which the name is used under the valuation and is not in
scope. -/
def Draft.Misses (d : Draft) (c : Config) (v : Gate.Valuation) (n : String) : Prop :=
  ∃ s p, Schema.ofDraft d = .ok s ∧ Artifact.plan s c = .ok p ∧
    ∃ k ∈ p.kinds, k.entry.enabled v = true ∧ n ∈ k.fixedNames ∧ ¬ Artifact.InScope s c v n

namespace Unscoped

/-! Three drafts that pass all checks. In the first the entry `NodeId` is written under another
name, in the second it is there only with a feature, and in the third nothing declares or imports
the separated list. -/

def renamed : Draft where
  entries := [
    ("NodeId", .definition [("rename", .text "Id"), ("node", .flag false), ("value", .text "u32")]),
    ("A", .definition [("x", .text "u8")])]
  nodup := by decide

def gated : Draft where
  entries := [
    ("NodeId", .definition
      [("feature", .text "ids"), ("node", .flag false), ("value", .text "u32")]),
    ("A", .definition [("x", .text "u8")])]
  nodup := by decide

def separated : Draft where
  entries := [("A", .definition [("x", .text "CommaSeparated<u8>")])]
  nodup := by decide

def config : Config := { imports := ["crate::NodeId", "crate::HasId", "pxp_span::Span"] }

def identity : Entry :=
  { name := "NodeId", displayName := "Id", shape := .product [("value", .named "u32")],
    hasIdentity := false }

def gatedIdentity : Entry :=
  { identity with displayName := "NodeId", gate := some ⟨"ids", false⟩ }

def plain : Entry := { name := "A", displayName := "A", shape := .product [("x", .named "u8")] }

def parts : Entry :=
  { plain with shape := .product [("x", .wrap .separated (.named "u8"))] }

/-- What is left to evaluate: the entries, the plans of the kinds, and the names in scope. -/
theorem misses_of_kinds (s : Schema) (kinds : List KindPlan) {d : Draft} {c : Config}
    {v : Gate.Valuation} {n : String} (hs : Schema.parseEntries d.entries = .ok s.entries)
    (hp : (Artifact.plan s c).map Artifact.Plan.kinds = .ok kinds)
    (hk : ∃ k ∈ kinds, k.entry.enabled v = true ∧ n ∈ k.fixedNames)
    (hn : ¬ Artifact.InScope s c v n) : d.Misses c v n := by
  obtain ⟨p, hplan, rfl⟩ := map_eq_ok_iff.mp hp
  obtain ⟨k, hmem, hv, huse⟩ := hk
  exact ⟨s, p, Schema.ofDraft_eq_ok hs, hplan, k, hmem, hv, huse, hn⟩

theorem misses_fixed_names :
    renamed.Misses {} (fun _ => true) "NodeId" ∧ gated.Misses {} (fun _ => false) "NodeId" ∧
      separated.Misses config (fun _ => true) "CommaSeparated" := by
  refine ⟨?_, ?_, ?_⟩
  · exact misses_of_kinds ⟨[identity, plain], by decide⟩
      [⟨identity, none, none⟩, ⟨plain, some .stored, none⟩] (by decide +kernel)
      (by decide +kernel) (by decide) (by decide +kernel)
  · exact misses_of_kinds ⟨[gatedIdentity, plain], by decide⟩
      [⟨gatedIdentity, none, none⟩, ⟨plain, some .stored, none⟩] (by decide +kernel)
      (by decide +kernel) (by decide) (by decide +kernel)
  · exact misses_of_kinds ⟨[parts], by decide⟩ [⟨parts, some .stored, none⟩]
      (by decide +kernel) (by decide +kernel) (by decide) (by decide +kernel)

end Unscoped

end TreeSchema
