import TreeSchema.Proofs.Children.Plan
import TreeSchema.Proofs.Positions
import TreeSchema.Proofs.Schema.Loaded
import TreeSchema.Proofs.Schema.References
import TreeSchema.View.Source

/-!
# Calls between accessors

The accessors that are written for one kind call those of others: identities and positions of
payloads, conversions of children. Whichever features are on, every call reaches an entry that is
there and has the accessor.
-/

namespace TreeSchema

open Checked

theorem TypeExpr.names_unboxed (t : TypeExpr) : t.unboxed.names = t.names := by
  cases t with
  | wrap w inner => cases w <;> rfl
  | _ => rfl

namespace Schema

variable {s : Schema} {imported : List String} {v : Gate.Valuation} {n : String} {t : TypeExpr}

/-- Under a setting of the features a name means exactly one entry that is there, one of those it
refers to, and `P` holds of that. -/
def Denotes (s : Schema) (v : Gate.Valuation) (n : String) (P : Entry → Prop) : Prop :=
  ∃ k ∈ s.resolve n, (s.writtenAs (s.displayNameOf n)).filter (Entry.enabled v) = [k] ∧ P k

/-- A payload's type is a name behind boxes and aliases, and `P` holds of what that means. -/
def PayloadDenotes (s : Schema) (v : Gate.Valuation) (t : TypeExpr) (P : Entry → Prop) : Prop :=
  ∃ n, (s.resolveAlias t.unboxed).unboxed = .named n ∧ s.Denotes v n P

/-- If a name refers to entries at all, one of them is there. -/
def Available (s : Schema) (v : Gate.Valuation) (n : String) : Prop :=
  s.resolve n ≠ [] → ∃ k ∈ s.resolve n, k.enabled v = true

theorem Available.denotes (ha : s.Available v n) (hc : s.check imported = .ok ())
    (hne : s.resolve n ≠ []) {P : Entry → Prop} (hP : ∀ k ∈ s.resolve n, P k) :
    s.Denotes v n P := by
  obtain ⟨k, hk, hkv⟩ := ha hne
  exact ⟨k, hk, filter_writtenAs_of_check hc hk hkv, hP k hk⟩

theorem available_of_mem_types (hc : s.check imported = .ok ()) {e : Entry} (he : e ∈ s.entries)
    (hv : e.enabled v = true) (ht : t ∈ e.shape.types) : ∀ m ∈ t.names, s.Available v m := by
  intro m hm hne
  exact exists_enabled_of_check hc he hv (List.mem_flatMap.mpr ⟨t, ht, hm⟩) hne

/-- Aliases have no gate, so what they mention is there under every setting. -/
theorem available_of_aliasTarget? (hl : ∀ e ∈ s.entries, e.Loaded)
    (hc : s.check imported = .ok ()) {target : TypeExpr} (h : s.aliasTarget? t = some target) :
    ∀ m ∈ target.names, s.Available v m := by
  obtain ⟨a, ha, hs⟩ := aliasTarget?_eq_some h
  have hgate := ((hl a ha).plain (by simp [Entry.isAlias, hs])).2
  exact available_of_mem_types hc ha (Entry.enabled_of_gate_none hgate v)
    (by simp [hs, Shape.types])

theorem available_followAlias (hl : ∀ e ∈ s.entries, e.Loaded) (hc : s.check imported = .ok ())
    (ht : ∀ m ∈ t.names, s.Available v m) (k : ℕ) :
    ∀ m ∈ (s.followAlias k t).names, s.Available v m := by
  induction k generalizing t with
  | zero => exact ht
  | succ k ih =>
    unfold followAlias
    split
    · next target h => exact ih (available_of_aliasTarget? hl hc h)
    · exact ht

theorem available_resolveAlias (hl : ∀ e ∈ s.entries, e.Loaded) (hc : s.check imported = .ok ())
    (ht : ∀ m ∈ t.names, s.Available v m) : ∀ m ∈ (s.resolveAlias t).names, s.Available v m :=
  available_followAlias hl hc ht s.entries.length

/-- If a name refers to a kind at all, it refers to no alias. -/
theorem isAlias_of_mem_resolve (hl : ∀ e ∈ s.entries, e.Loaded)
    (hne : (s.resolve n).filter (fun e => !e.isAlias) ≠ []) {k : Entry} (hk : k ∈ s.resolve n) :
    k.isAlias = false := by
  cases hg : s.get? n with
  | some a =>
    simp only [resolve, hg, List.mem_singleton] at hk hne
    subst hk
    by_contra hka
    simp [hka] at hne
  | none => exact isAlias_of_get?_eq_none hl hg hk

/-- The kinds that a payload refers to include the one that is there. -/
theorem payloadDenotes_of_wrappedKinds (hl : ∀ e ∈ s.entries, e.Loaded)
    (hc : s.check imported = .ok ()) (ht : ∀ m ∈ t.names, s.Available v m)
    (hne : s.wrappedKinds t ≠ []) {P : Entry → Prop} (hP : ∀ k ∈ s.wrappedKinds t, P k) :
    s.PayloadDenotes v t P := by
  cases hcore : (s.resolveAlias t.unboxed).unboxed with
  | position => simp [wrappedKinds, hcore] at hne
  | wrap w inner => simp [wrappedKinds, hcore] at hne
  | named n =>
    have hkinds : s.wrappedKinds t = (s.resolve n).filter fun e => !e.isAlias := by
      simp [wrappedKinds, hcore]
    rw [hkinds] at hne hP
    have hav : s.Available v n := by
      rw [← TypeExpr.names_unboxed] at ht
      have hnames := available_resolveAlias hl hc ht
      rw [← TypeExpr.names_unboxed, hcore] at hnames
      exact hnames n (by simp [TypeExpr.names])
    have hres : s.resolve n ≠ [] := fun h => hne (by simp [h])
    refine ⟨n, hcore, hav.denotes hc hres fun k hk => ?_⟩
    exact hP k (List.mem_filter.mpr ⟨hk, by simp [isAlias_of_mem_resolve hl hne hk]⟩)

end Schema

/-- The name that an access path leads to is there. -/
theorem Access.Leads.available {s : Schema} {imported : List String} {v : Gate.Valuation}
    {t : TypeExpr} {a : Access} {n : String} (hl : ∀ e ∈ s.entries, e.Loaded)
    (hc : s.check imported = .ok ()) (h : Leads s t a n)
    (ht : ∀ m ∈ t.names, s.Available v m) : s.Available v n := by
  induction h with
  | @name t n core =>
    have hnames := Schema.available_resolveAlias hl hc ht
    exact hnames n (by simp [core, TypeExpr.names])
  | @wrap t inner w a n core rest ih =>
    have hnames := Schema.available_resolveAlias hl hc ht
    exact ih fun m hm => hnames m (by simpa [core, TypeExpr.names] using hm)

/-- A sum wraps a type in a variant. -/
def Entry.HasPayload (e : Entry) (variant : String) (t : TypeExpr) : Prop :=
  ∃ variants, e.shape = .sum variants ∧ (variant, .wrap t) ∈ variants

theorem Entry.HasPayload.mem_types {e : Entry} {variant : String} {t : TypeExpr}
    (h : e.HasPayload variant t) : t ∈ e.shape.types := by
  obtain ⟨variants, hs, hv⟩ := h
  rw [hs]
  exact List.mem_flatMap.mpr ⟨_, hv, by simp [Variant.types]⟩

namespace IdentityPlan

variable {s : Schema} {e : Entry}

theorem checkDelegate_ok {name : String} {t : TypeExpr} (h : checkDelegate s e name t = .ok ()) :
    s.wrappedKinds t ≠ [] ∧ ∀ k ∈ s.wrappedKinds t, k.participates = true := by
  unfold checkDelegate at h
  cases hw : s.wrappedKinds t with
  | nil =>
    simp only [hw] at h
    split at h
    · split at h <;> cases h
    · cases h
  | cons first rest =>
    simp only [hw] at h
    split at h
    · cases h
    · next hf => exact ⟨List.cons_ne_nil _ _, by simpa using List.find?_eq_none.mp hf⟩

/-- An arm that delegates wraps kinds that all have an identity. -/
theorem delegate_arm {arms : List (Arm IdentityAction)} (h : ofEntry s e = .ok (.dispatch arms))
    {a : Arm IdentityAction} (ha : a ∈ arms) (hd : a.action = .delegate) :
    ∃ t, e.HasPayload a.variant t ∧ s.wrappedKinds t ≠ [] ∧
      ∀ k ∈ s.wrappedKinds t, k.participates = true := by
  unfold ofEntry at h
  split at h
  · next variants hs =>
    split at h
    · cases h
    · next collected hcol =>
      cases h
      obtain ⟨⟨name, variant⟩, hv, harm⟩ := exists_of_mem_collect hcol ha
      unfold arm action at harm
      cases variant with
      | unit => cases harm; cases hd
      | struct fields hasId => cases harm; cases hasId <;> cases hd
      | wrap t =>
        simp only at harm
        split at harm
        · cases harm
        · next act hact =>
          cases harm
          split at hact
          · cases hact; cases hd
          · split at hact
            · cases hact
            · next hok => exact ⟨t, ⟨variants, hs, hv⟩, checkDelegate_ok hok⟩
  · cases h

end IdentityPlan

namespace PositionPlan

/-- An arm that forwards wraps kinds that all have a position. -/
theorem forward_arm {s : Schema} {p : Positions} {strict : Bool} {e : Entry}
    {arms : List (Arm PositionAction)} (h : ofEntry s p strict e = .ok (.dispatch arms))
    {a : Arm PositionAction} (ha : a ∈ arms) (hf : a.action = .forward) :
    ∃ t, e.HasPayload a.variant t ∧ s.wrappedKinds t ≠ [] ∧
      ∀ k ∈ s.wrappedKinds t, k.name ∈ p.names := by
  unfold ofEntry at h
  split at h
  · cases h
  · split at h <;> cases h
  · next variants hs =>
    split at h
    · cases h
    · next collected hcol =>
      cases h
      obtain ⟨⟨name, variant⟩, hv, harm⟩ := exists_of_mem_collect hcol ha
      unfold arm at harm
      split at harm
      · cases harm
      · cases harm
        unfold action at hf
        cases variant with
        | unit => cases hf
        | struct fields hasId => simp only at hf; split at hf <;> cases hf
        | wrap t =>
          simp only at hf
          split at hf
          · cases hf
          · split at hf
            · next hw => exact ⟨t, ⟨variants, hs, hv⟩, Positions.wrapsPositioned_iff.mp hw⟩
            · cases hf

end PositionPlan

namespace KindPlan

variable {s : Schema} {p : Positions} {strict : Bool} {e : Entry} {k : KindPlan}

theorem ofEntry_eq_ok_iff : ofEntry s p strict e = .ok k ↔
    k.entry = e ∧ identityOf s e = .ok k.identity ∧ positionOf s p strict e = .ok k.position := by
  obtain ⟨entry, identity, position⟩ := k
  unfold ofEntry
  cases identityOf s e with
  | error f => simp
  | ok i =>
    cases positionOf s p strict e with
    | error f => simp
    | ok q => simp [eq_comm]

theorem isSome_identity {identity : Option IdentityPlan} (h : identityOf s e = .ok identity) :
    identity.isSome = e.participates := by
  unfold identityOf at h
  split at h
  · next hp =>
    obtain ⟨i, -, rfl⟩ := map_eq_ok_iff.mp h
    simp [hp]
  · next hp => cases h; simpa using hp

theorem isSome_position {position : Option PositionPlan}
    (h : positionOf s p strict e = .ok position) : position.isSome = p.contains e.name := by
  unfold positionOf at h
  split at h
  · next hp =>
    obtain ⟨q, -, rfl⟩ := map_eq_ok_iff.mp h
    simp [hp]
  · next hp => cases h; exact ((Bool.not_eq_true _).mp hp).symm

theorem ofEntry_of_identityOf {i : IdentityPlan} (h : identityOf s e = .ok (some i)) :
    IdentityPlan.ofEntry s e = .ok i := by
  unfold identityOf at h
  split at h
  · obtain ⟨j, hj, hij⟩ := map_eq_ok_iff.mp h
    rwa [← Option.some.inj hij]
  · cases h

theorem ofEntry_of_positionOf {q : PositionPlan} (h : positionOf s p strict e = .ok (some q)) :
    PositionPlan.ofEntry s p strict e = .ok q := by
  unfold positionOf at h
  split at h
  · obtain ⟨j, hj, hij⟩ := map_eq_ok_iff.mp h
    rwa [← Option.some.inj hij]
  · cases h

end KindPlan

namespace ViewPlan

variable {s : Schema} {p : Positions} {view : ViewPlan}

theorem ofSchema_eq_ok_iff : ofSchema s p = .ok view ↔ checkReserved s = .ok () ∧
    collect (ViewCase.ofEntry s p) s.participating = .ok view.cases ∧ view.cases ≠ [] ∧
      checkAccessors [] view.cases = .ok () := by
  obtain ⟨cases⟩ := view
  constructor
  · intro h
    obtain ⟨hres, h⟩ := then_eq_ok_iff.mp h
    obtain ⟨cs, hcol, h⟩ := bind_eq_ok_iff.mp h
    obtain ⟨hne, h⟩ := then_eq_ok_iff.mp h
    obtain ⟨hacc, heq⟩ := then_eq_ok_iff.mp h
    cases heq
    exact ⟨hres, hcol, by simpa [require_eq_ok_iff] using hne, hacc⟩
  · rintro ⟨hres, hcol, hne, hacc⟩
    refine then_eq_ok_iff.mpr ⟨hres, bind_eq_ok_iff.mpr ⟨cases, hcol, ?_⟩⟩
    refine then_eq_ok_iff.mpr ⟨?_, then_eq_ok_iff.mpr ⟨hacc, rfl⟩⟩
    simpa [require_eq_ok_iff] using hne

theorem cases_of_ofSchema (h : ofSchema s p = .ok view) :
    collect (ViewCase.ofEntry s p) s.participating = .ok view.cases :=
  (ofSchema_eq_ok_iff.mp h).2.1

end ViewPlan

section Calls

variable {d : Draft} {s : Schema} {imported : List String} {strict : Bool} {kinds : List KindPlan}
  {view : ViewPlan} {v : Gate.Valuation} {k : KindPlan}

theorem KindPlan.of_mem
    (hk : collect (KindPlan.ofEntry s (Positions.analyze s) strict) s.entries = .ok kinds)
    (hm : k ∈ kinds) : k.entry ∈ s.entries ∧ identityOf s k.entry = .ok k.identity ∧
      positionOf s (Positions.analyze s) strict k.entry = .ok k.position := by
  obtain ⟨e, he, hke⟩ := exists_of_mem_collect hk hm
  obtain ⟨rfl, hi, hp⟩ := ofEntry_eq_ok_iff.mp hke
  exact ⟨he, hi, hp⟩

theorem KindPlan.exists_mem
    (hk : collect (KindPlan.ofEntry s (Positions.analyze s) strict) s.entries = .ok kinds)
    {e : Entry} (he : e ∈ s.entries) : ∃ k ∈ kinds, k.entry = e ∧
      k.identity.isSome = e.participates ∧
      k.position.isSome = (Positions.analyze s).contains e.name := by
  obtain ⟨k, hm, hke⟩ := exists_mem_collect hk he
  obtain ⟨rfl, hi, hp⟩ := ofEntry_eq_ok_iff.mp hke
  exact ⟨k, hm, rfl, isSome_identity hi, isSome_position hp⟩

/-- Every identity that an arm asks a payload for is there. -/
theorem delegate_reaches (hl : ∀ e ∈ s.entries, e.Loaded) (hc : s.check imported = .ok ())
    (hk : collect (KindPlan.ofEntry s (Positions.analyze s) strict) s.entries = .ok kinds)
    (hm : k ∈ kinds) (hv : k.entry.enabled v = true) {arms : List (Arm IdentityAction)}
    (hi : k.identity = some (.dispatch arms)) {a : Arm IdentityAction} (ha : a ∈ arms)
    (hd : a.action = .delegate) : ∃ t, k.entry.HasPayload a.variant t ∧
      s.PayloadDenotes v t fun target => ∃ k' ∈ kinds, k'.entry = target ∧
        k'.identity.isSome = true := by
  obtain ⟨he, hid, -⟩ := KindPlan.of_mem hk hm
  rw [hi] at hid
  obtain ⟨t, ht, hne, hpart⟩ := IdentityPlan.delegate_arm (KindPlan.ofEntry_of_identityOf hid) ha hd
  have hav := Schema.available_of_mem_types hc he hv ht.mem_types
  refine ⟨t, ht, Schema.payloadDenotes_of_wrappedKinds hl hc hav hne fun target htarget => ?_⟩
  obtain ⟨k', hk', hke, hks, -⟩ :=
    KindPlan.exists_mem hk (Schema.mem_entries_of_mem_wrappedKinds htarget)
  exact ⟨k', hk', hke, by rw [hks, hpart target htarget]⟩

/-- Every position that an arm asks a payload for is there. -/
theorem forward_reaches (hl : ∀ e ∈ s.entries, e.Loaded) (hc : s.check imported = .ok ())
    (hk : collect (KindPlan.ofEntry s (Positions.analyze s) strict) s.entries = .ok kinds)
    (hm : k ∈ kinds) (hv : k.entry.enabled v = true) {arms : List (Arm PositionAction)}
    (hp : k.position = some (.dispatch arms)) {a : Arm PositionAction} (ha : a ∈ arms)
    (hf : a.action = .forward) : ∃ t, k.entry.HasPayload a.variant t ∧
      s.PayloadDenotes v t fun target => ∃ k' ∈ kinds, k'.entry = target ∧
        k'.position.isSome = true := by
  obtain ⟨he, -, hpos⟩ := KindPlan.of_mem hk hm
  rw [hp] at hpos
  obtain ⟨t, ht, hne, hin⟩ := PositionPlan.forward_arm (KindPlan.ofEntry_of_positionOf hpos) ha hf
  have hav := Schema.available_of_mem_types hc he hv ht.mem_types
  refine ⟨t, ht, Schema.payloadDenotes_of_wrappedKinds hl hc hav hne fun target htarget => ?_⟩
  obtain ⟨k', hk', hke, -, hks⟩ :=
    KindPlan.exists_mem hk (Schema.mem_entries_of_mem_wrappedKinds htarget)
  exact ⟨k', hk', hke, by rw [hks, Positions.contains_iff]; exact hin target htarget⟩

theorem ViewCase.of_mem (hv : ViewPlan.ofSchema s (Positions.analyze s) = .ok view) {c : ViewCase}
    (hm : c ∈ view.cases) : c.entry ∈ s.entries ∧ c.entry.participates = true ∧
      ChildrenPlan.ofEntry s c.entry = .ok c.children ∧
      c.positioned = (Positions.analyze s).contains c.entry.name := by
  obtain ⟨e, he, hce⟩ := exists_of_mem_collect (ViewPlan.cases_of_ofSchema hv) hm
  obtain ⟨children, hch, rfl⟩ := map_eq_ok_iff.mp hce
  obtain ⟨hes, hep⟩ := List.mem_filter.mp he
  exact ⟨hes, hep, hch, rfl⟩

theorem ViewCase.exists_mem (hv : ViewPlan.ofSchema s (Positions.analyze s) = .ok view) {e : Entry}
    (he : e ∈ s.entries) (hp : e.participates = true) : ∃ c ∈ view.cases, c.entry = e := by
  obtain ⟨c, hm, hce⟩ :=
    exists_mem_collect (ViewPlan.cases_of_ofSchema hv) (List.mem_filter.mpr ⟨he, hp⟩)
  obtain ⟨children, -, rfl⟩ := map_eq_ok_iff.mp hce
  exact ⟨_, hm, rfl⟩

/-- Every conversion that a child needs is there. -/
theorem children_reach (hl : ∀ e ∈ s.entries, e.Loaded) (hc : s.check imported = .ok ())
    (hv : ViewPlan.ofSchema s (Positions.analyze s) = .ok view) {c : ViewCase}
    (hm : c ∈ view.cases) (he : c.entry.enabled v = true) :
    c.children.Over c.entry fun t a => ∃ n, Access.Leads s t a n ∧
      s.Denotes v n fun target => ∃ c' ∈ view.cases, c'.entry = target := by
  obtain ⟨hes, -, hch, -⟩ := ViewCase.of_mem hv hm
  refine ChildrenPlan.over_ofEntry (fun f t a ht hfind => ?_) hch
  obtain ⟨n, hlead, hne, hpart⟩ := Access.leads_of_find hfind
  have hav := hlead.available hl hc (Schema.available_of_mem_types hc hes he ht)
  refine ⟨n, hlead, hav.denotes hc hne fun target htarget => ?_⟩
  exact ViewCase.exists_mem hv (Schema.mem_entries_of_mem_resolve htarget) (hpart target htarget)

/-- No accessor of an entry that is there calls one that is not. Identities and positions of
payloads and conversions of children are those of the one entry that the payload's or child's name
means under the setting; an entry's own conversion uses its identity, and its position exactly if
it has one. -/
theorem accessor_calls_reach (hs : Schema.ofDraft d = .ok s) (hc : s.check imported = .ok ())
    (hk : collect (KindPlan.ofEntry s (Positions.analyze s) strict) s.entries = .ok kinds)
    (hw : ViewPlan.ofSchema s (Positions.analyze s) = .ok view)
    (hm : k ∈ kinds) (hv : k.entry.enabled v = true) :
    (∀ arms, k.identity = some (.dispatch arms) → ∀ a ∈ arms, a.action = .delegate →
      ∃ t, k.entry.HasPayload a.variant t ∧ s.PayloadDenotes v t fun target =>
        ∃ k' ∈ kinds, k'.entry = target ∧ k'.identity.isSome = true) ∧
    (∀ arms, k.position = some (.dispatch arms) → ∀ a ∈ arms, a.action = .forward →
      ∃ t, k.entry.HasPayload a.variant t ∧ s.PayloadDenotes v t fun target =>
        ∃ k' ∈ kinds, k'.entry = target ∧ k'.position.isSome = true) ∧
    (∀ c ∈ view.cases, c.entry = k.entry →
      c.children.Over k.entry fun t a => ∃ n, Access.Leads s t a n ∧
        s.Denotes v n fun target => ∃ c' ∈ view.cases, c'.entry = target) ∧
    (∀ c ∈ view.cases, c.entry = k.entry → k.identity.isSome = true ∧
      c.positionText = if k.position.isSome then "node.span()" else "Span::default()") := by
  have hl := Schema.loaded_ofDraft hs
  refine ⟨?_, ?_, ?_, ?_⟩
  · intro arms hi a ha hd
    exact delegate_reaches hl hc hk hm hv hi ha hd
  · intro arms hp a ha hf
    exact forward_reaches hl hc hk hm hv hp ha hf
  · intro c hcm hce
    rw [← hce] at hv ⊢
    exact children_reach hl hc hw hcm hv
  · intro c hcm hce
    obtain ⟨-, hpart, -, hpos⟩ := ViewCase.of_mem hw hcm
    obtain ⟨-, hid, hkpos⟩ := KindPlan.of_mem hk hm
    rw [hce] at hpart hpos
    refine ⟨by rw [KindPlan.isSome_identity hid, hpart], ?_⟩
    rw [KindPlan.isSome_position hkpos, ← hpos]
    rfl

end Calls

namespace Dialects

/-! Two products under one written name and opposite gates, and a sum that wraps whichever is there
behind a box and an alias. -/

def draft : Draft where
  entries := [
    ("Modern", .definition
      [("rename", .text "Item"), ("feature", .text "modern"), ("span", .text "Span")]),
    ("Old", .definition
      [("rename", .text "Item"), ("feature", .text "!modern"), ("span", .text "Span")]),
    ("Boxed", .aliasOf "Box<Item>"),
    ("Any", .definition
      [("as", .text "Enum"), ("Item", .text "Box<Boxed>"), ("children", .text "self")])]
  nodup := by decide

def modern : Entry :=
  { name := "Modern", displayName := "Item", shape := .product [("span", .position)],
    gate := some ⟨"modern", false⟩ }

def old : Entry :=
  { name := "Old", displayName := "Item", shape := .product [("span", .position)],
    gate := some ⟨"modern", true⟩ }

def boxed : Entry :=
  { name := "Boxed", displayName := "Boxed", shape := .aliasOf (.wrap .box (.named "Item")) }

def any : Entry :=
  { name := "Any", displayName := "Any",
    shape := .sum [("Item", .wrap (.wrap .box (.named "Boxed")))], children := some .variants }

def schema : Schema := ⟨[modern, old, boxed, any], by decide⟩

def anyPlan : KindPlan :=
  ⟨any, some (.dispatch [⟨"Item", .tuple, .delegate⟩]),
    some (.dispatch [⟨"Item", .tuple, .forward⟩])⟩

def kinds : List KindPlan :=
  [⟨modern, some .stored, some (.field "span")⟩, ⟨old, some .stored, some (.field "span")⟩,
    ⟨boxed, none, none⟩, anyPlan]

def view : ViewPlan :=
  ⟨[⟨modern, "item", true, .none⟩, ⟨old, "item", true, .none⟩,
    ⟨any, "any", true, .variants [⟨"Item", .tuple, .payload [.box, .box]⟩]⟩]⟩

theorem calls_reach :
    Schema.ofDraft draft = .ok schema ∧ schema.check ["NodeId", "Span", "HasId"] = .ok () ∧
    collect (KindPlan.ofEntry schema (Positions.analyze schema) true) schema.entries = .ok kinds ∧
    ViewPlan.ofSchema schema (Positions.analyze schema) = .ok view ∧
    anyPlan ∈ kinds ∧ any.enabled (fun _ => false) = true ∧
    ∃ t, any.HasPayload "Item" t ∧ schema.PayloadDenotes (fun _ => false) t fun target =>
      ∃ k ∈ kinds, k.entry = target ∧ k.identity.isSome = true := by
  have hs : Schema.ofDraft draft = .ok schema := Schema.ofDraft_eq_ok (by decide +kernel)
  have hc : schema.check ["NodeId", "Span", "HasId"] = .ok () := by decide +kernel
  have hk : collect (KindPlan.ofEntry schema (Positions.analyze schema) true) schema.entries =
      .ok kinds := by decide +kernel
  have hw : ViewPlan.ofSchema schema (Positions.analyze schema) = .ok view := by decide +kernel
  have hm : anyPlan ∈ kinds := by decide
  have hv : any.enabled (fun _ => false) = true := by decide
  refine ⟨hs, hc, hk, hw, hm, hv, ?_⟩
  exact (accessor_calls_reach hs hc hk hw hm hv).1 _ rfl ⟨"Item", .tuple, .delegate⟩ (by decide) rfl

end Dialects

end TreeSchema
