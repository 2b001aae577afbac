import Mathlib.Data.List.Nodup
import TreeSchema.Proofs.Schema.Origin

/-!
# Settings stand anywhere

What a definition says has two parts. Each setting is looked up under its key, so that its place
among the other members does not matter. The members that are no settings are the fields or the
variants of the entry, in order.
-/

namespace TreeSchema

open Checked
open Draft (Value)

def Draft.Value.isFlag : Value → Bool
  | flag _ => true
  | _ => false

namespace Entry

/-- A member of a definition that configures the entry: `span` does so only with a truth value. -/
def isSetting (m : String × Value) : Bool :=
  settingWords.contains m.1 || (m.1 == "span" && m.2.isFlag)

/-- A member of a variant that says whether the variant has an identity. -/
def isIdentity (m : String × Value) : Bool := m.1 == "node" && m.2.isFlag

/-- The same members, of which those that are not reserved are in the same order. -/
structure Rearranged (reserved : String × Value → Bool) (ms ns : List (String × Value)) : Prop where
  perm : ms.Perm ns
  order : ms.filter (!reserved ·) = ns.filter (!reserved ·)

/-- The field that a member stands for. -/
structure FieldOf (m : String × Value) (f : String × TypeExpr) : Prop where
  key : m.1 = f.1
  ident : Name.isIdent m.1 = true
  type : ∃ text, m.2 = .text text ∧ parseType text = .ok f.2

/-- The variant that a member stands for. -/
structure VariantOf (m : String × Value) (v : String × Variant) : Prop where
  key : m.1 = v.1
  ident : Name.isIdent m.1 = true
  variant : parseVariant m.1 m.2 = .ok v.2

/-! ### Values under keys -/

/-- What the value under a key says, or what holds without the key. -/
def under {α : Type} (key : String) (read : Value → Result α) (without : α)
    (ms : List (String × Value)) : Result α :=
  match ms.lookup key with
  | none => .ok without
  | some value => read value

section Under

variable {α : Type} {key : String} {read : Value → Result α} {a c : α} {m : String × Value}
  {ms ns : List (String × Value)}

theorem lookup_cons_of_ne (h : key ≠ m.1) : (m :: ms).lookup key = ms.lookup key := by
  rw [List.lookup_cons, beq_eq_false_iff_ne.mpr h]

theorem lookup_eq_of_perm (h : ms.Perm ns) (distinct : (ms.map Prod.fst).Nodup) (key : String) :
    ms.lookup key = ns.lookup key := by
  induction h with
  | nil => rfl
  | cons m _ ih => rw [List.lookup_cons, List.lookup_cons, ih (List.nodup_cons.mp distinct).2]
  | swap m n l =>
    have hne : n.1 ≠ m.1 := by
      intro heq
      simp [heq] at distinct
    by_cases hkey : key = m.1
    · subst hkey
      rw [lookup_cons_of_ne hne.symm, List.lookup_cons_self, List.lookup_cons_self]
    · rw [lookup_cons_of_ne hkey, List.lookup_cons, lookup_cons_of_ne hkey, List.lookup_cons]
  | trans h₁ _ ih₁ ih₂ =>
    exact (ih₁ distinct).trans (ih₂ ((h₁.map Prod.fst).nodup_iff.mp distinct))

theorem under_eq_of_perm (h : ms.Perm ns) (distinct : (ms.map Prod.fst).Nodup) :
    under key read a ms = under key read a ns := by
  rw [under, under, lookup_eq_of_perm h distinct]

/-- Members with different keys can be taken one at a time. -/
theorem under_cons_eq_ok_iff (fresh : m.1 ∉ ms.map Prod.fst) :
    under key read a (m :: ms) = .ok c ↔
      ∃ b, under key read a [m] = .ok b ∧ under key read b ms = .ok c := by
  by_cases hkey : key = m.1
  · have hnone : ms.lookup key = none := by
      rw [List.lookup_eq_none_iff]
      intro n hn
      rw [bne_iff_ne, hkey]
      intro heq
      exact fresh (heq ▸ List.mem_map_of_mem hn)
    have hself (l : List (String × Value)) : (m :: l).lookup key = some m.2 := by
      rw [hkey, List.lookup_cons_self]
    simp only [under, hself, hnone, Except.ok.injEq, exists_eq_right]
  · simp only [under, lookup_cons_of_ne hkey, List.lookup_nil, Except.ok.injEq, exists_eq_left']

theorem notMem_keys_filter (fresh : m.1 ∉ ms.map Prod.fst) (p : String × Value → Bool) :
    m.1 ∉ (ms.filter p).map Prod.fst := by
  intro h
  exact fresh ((List.filter_sublist.map Prod.fst).subset h)

end Under

/-! ### Members of variants -/

section Variants

variable {variant : String} {acc out : Fields × Bool} {m : String × Value}
  {ms : List (String × Value)}

theorem parseVariantMember_of_isIdentity (h : isIdentity m = true) :
    parseVariantMember variant acc m.1 m.2 = .ok out ↔
      out.1 = acc.1 ∧ under "node" parseIdentity acc.2 [m] = .ok out.2 := by
  obtain ⟨key, value⟩ := m
  obtain ⟨rfl, hvalue⟩ : key = "node" ∧ value.isFlag = true := by simpa [isIdentity] using h
  cases value with
  | flag b =>
    simp [parseVariantMember, under, parseIdentity, Prod.ext_iff, eq_comm]
  | null | text | list | mapping => simp [Value.isFlag] at hvalue

theorem parseVariantMember_of_field (h : isIdentity m = false) :
    parseVariantMember variant acc m.1 m.2 = .ok out ↔
      ∃ f, FieldOf m f ∧ out = (acc.1 ++ [f], acc.2) := by
  obtain ⟨key, value⟩ := m
  constructor
  · intro hm
    obtain ⟨rfl, b, rfl, -⟩ | ⟨hkey, text, t, rfl, ht, rfl⟩ := parseVariantMember_cases hm
    · simp [isIdentity, Value.isFlag] at h
    · exact ⟨(key, t), ⟨rfl, hkey, text, rfl, ht⟩, rfl⟩
  · rintro ⟨⟨_, t⟩, ⟨rfl, hkey, text, rfl, ht⟩, rfl⟩
    simp [parseVariantMember, hkey, ht]

/-- A variant has the fields of its members in order, and its identity as it is said, wherever. -/
theorem parseVariantMembers_eq_ok_iff (distinct : (ms.map Prod.fst).Nodup) :
    parseVariantMembers variant acc ms = .ok out ↔
      under "node" parseIdentity acc.2 (ms.filter isIdentity) = .ok out.2 ∧
      ∃ fields, List.Forall₂ FieldOf (ms.filter (!isIdentity ·)) fields ∧
        out.1 = acc.1 ++ fields := by
  induction ms generalizing acc with
  | nil => simp [parseVariantMembers, under, Prod.ext_iff, eq_comm, and_comm]
  | cons m ms ih =>
    obtain ⟨fresh, distinct⟩ := List.nodup_cons.mp distinct
    have hstep : parseVariantMembers variant acc (m :: ms) = .ok out ↔
        ∃ next, parseVariantMember variant acc m.1 m.2 = .ok next ∧
          parseVariantMembers variant next ms = .ok out := bind_eq_ok_iff
    simp only [hstep, ih distinct]
    by_cases hm : isIdentity m = true
    · rw [List.filter_cons_of_pos hm, List.filter_cons_of_neg (by simp [hm]),
        under_cons_eq_ok_iff (notMem_keys_filter fresh _)]
      constructor
      · rintro ⟨next, hnext, hnode, fields, hfields, hout⟩
        obtain ⟨hacc, hb⟩ := (parseVariantMember_of_isIdentity hm).mp hnext
        exact ⟨⟨next.2, hb, hnode⟩, fields, hfields, hacc ▸ hout⟩
      · rintro ⟨⟨b, hb, hnode⟩, fields, hfields, hout⟩
        exact ⟨(acc.1, b), (parseVariantMember_of_isIdentity hm).mpr ⟨rfl, hb⟩, hnode, fields,
          hfields, hout⟩
    · rw [List.filter_cons_of_neg hm, List.filter_cons_of_pos (by simpa using hm)]
      have hfield := @parseVariantMember_of_field variant acc
      constructor
      · rintro ⟨next, hnext, hnode, fields, hfields, hout⟩
        obtain ⟨f, hf, rfl⟩ := (hfield (by simpa using hm)).mp hnext
        exact ⟨hnode, f :: fields, .cons hf hfields, by simpa using hout⟩
      · rintro ⟨hnode, _, hfields, hout⟩
        cases hfields with
        | cons hf hfields =>
          exact ⟨_, (hfield (by simpa using hm)).mpr ⟨_, hf, rfl⟩, hnode, _, hfields,
            by simpa using hout⟩

end Variants

/-! ### Members of definitions -/

def readSpan : Value → Result Bool
  | .flag b => .ok b
  | _ => .ok false

/-- How settings change an entry: each part is what the value under its key says, and stays without
the key. -/
structure Sets (e : Entry) (settings : List (String × Value)) (e' : Entry) : Prop where
  name : e'.name = e.name
  shape : e'.shape = e.shape
  derives : under "derive" parseDerives e.extraDerives settings = .ok e'.extraDerives
  identity : under "node" parseIdentity e.hasIdentity settings = .ok e'.hasIdentity
  children : under "children" (fun v => (parseChildren v).map some) e.children settings =
    .ok e'.children
  gate : under "feature" (fun v => (parseGate v).map some) e.gate settings = .ok e'.gate
  display : under "rename" parseRename e.displayName settings = .ok e'.displayName
  position : under "span" readSpan e.forcePosition settings = .ok e'.forcePosition

section Definitions

variable {isSum : Bool} {p q : Partial} {e e' : Entry} {m : String × Value}
  {ms ns : List (String × Value)}

theorem Sets.unique (h : Sets e ms e') {e'' : Entry} (h' : Sets e ms e'') : e' = e'' := by
  have hname := h.name.trans h'.name.symm
  have hshape := h.shape.trans h'.shape.symm
  have hderives := h.derives.symm.trans h'.derives
  have hidentity := h.identity.symm.trans h'.identity
  have hchildren := h.children.symm.trans h'.children
  have hgate := h.gate.symm.trans h'.gate
  have hdisplay := h.display.symm.trans h'.display
  have hposition := h.position.symm.trans h'.position
  cases e'
  cases e''
  simp_all

theorem sets_nil (e : Entry) : Sets e [] e := ⟨rfl, rfl, rfl, rfl, rfl, rfl, rfl, rfl⟩

theorem sets_cons_iff (fresh : m.1 ∉ ms.map Prod.fst) :
    Sets e (m :: ms) e' ↔ ∃ next, Sets e [m] next ∧ Sets next ms e' := by
  constructor
  · rintro ⟨hname, hshape, hderives, hidentity, hchildren, hgate, hdisplay, hposition⟩
    obtain ⟨derives, hd, hderives⟩ := (under_cons_eq_ok_iff fresh).mp hderives
    obtain ⟨identity, hi, hidentity⟩ := (under_cons_eq_ok_iff fresh).mp hidentity
    obtain ⟨children, hc, hchildren⟩ := (under_cons_eq_ok_iff fresh).mp hchildren
    obtain ⟨gate, hg, hgate⟩ := (under_cons_eq_ok_iff fresh).mp hgate
    obtain ⟨display, hn, hdisplay⟩ := (under_cons_eq_ok_iff fresh).mp hdisplay
    obtain ⟨position, hp, hposition⟩ := (under_cons_eq_ok_iff fresh).mp hposition
    exact ⟨⟨e.name, display, e.shape, identity, position, gate, children, derives⟩,
      ⟨rfl, rfl, hd, hi, hc, hg, hn, hp⟩,
      ⟨hname, hshape, hderives, hidentity, hchildren, hgate, hdisplay, hposition⟩⟩
  · rintro ⟨next, h, h'⟩
    exact {
      name := h'.name.trans h.name
      shape := h'.shape.trans h.shape
      derives := (under_cons_eq_ok_iff fresh).mpr ⟨_, h.derives, h'.derives⟩
      identity := (under_cons_eq_ok_iff fresh).mpr ⟨_, h.identity, h'.identity⟩
      children := (under_cons_eq_ok_iff fresh).mpr ⟨_, h.children, h'.children⟩
      gate := (under_cons_eq_ok_iff fresh).mpr ⟨_, h.gate, h'.gate⟩
      display := (under_cons_eq_ok_iff fresh).mpr ⟨_, h.display, h'.display⟩
      position := (under_cons_eq_ok_iff fresh).mpr ⟨_, h.position, h'.position⟩ }

theorem isSome_setting? (m : String × Value) : (setting? m.1 m.2).isSome = isSetting m := by
  obtain ⟨key, value⟩ := m
  unfold setting?
  dsimp only
  split
  case h_7 => cases value <;> rfl
  case h_8 =>
    symm
    simp_all [isSetting, settingWords]
  all_goals rfl

/-- The key of a setting. -/
def Setting.key : Setting → String
  | shape => "as"
  | derives => "derive"
  | identity => "node"
  | children => "children"
  | gate => "feature"
  | rename => "rename"
  | position => "span"

theorem setting?_eq_some {setting : Setting} {key : String} {value : Value}
    (h : setting? key value = some setting) :
    key = setting.key ∧ (setting = .position → ∃ b, value = .flag b) := by
  unfold setting? at h
  split at h
  case h_7 =>
    split at h <;> cases h
    exact ⟨rfl, fun _ => ⟨_, rfl⟩⟩
  case h_8 => cases h
  all_goals
    cases h
    exact ⟨rfl, nofun⟩

theorem sets_configure {setting : Setting} (h : setting? m.1 m.2 = some setting)
    (hq : configure p setting m.2 = .ok q) : Sets p.entry [m] q.entry := by
  obtain ⟨key, value⟩ := m
  obtain ⟨rfl, hflag⟩ := setting?_eq_some h
  cases setting with
  | shape =>
    cases hq
    exact ⟨rfl, rfl, rfl, rfl, rfl, rfl, rfl, rfl⟩
  | derives =>
    obtain ⟨items, hitems, hq⟩ := bind_eq_ok_iff.mp hq
    cases hq
    exact ⟨rfl, rfl, hitems, rfl, rfl, rfl, rfl, rfl⟩
  | identity =>
    obtain ⟨b, hb, hq⟩ := bind_eq_ok_iff.mp hq
    cases hq
    exact ⟨rfl, rfl, rfl, hb, rfl, rfl, rfl, rfl⟩
  | children =>
    obtain ⟨spec, hspec, hq⟩ := bind_eq_ok_iff.mp hq
    cases hq
    exact ⟨rfl, rfl, rfl, rfl, map_eq_ok_iff.mpr ⟨spec, hspec, rfl⟩, rfl, rfl, rfl⟩
  | gate =>
    obtain ⟨g, hg, hq⟩ := bind_eq_ok_iff.mp hq
    cases hq
    exact ⟨rfl, rfl, rfl, rfl, rfl, map_eq_ok_iff.mpr ⟨g, hg, rfl⟩, rfl, rfl⟩
  | rename =>
    obtain ⟨name, hname, hq⟩ := bind_eq_ok_iff.mp hq
    cases hq
    exact ⟨rfl, rfl, rfl, rfl, rfl, rfl, hname, rfl⟩
  | position =>
    obtain ⟨b, rfl⟩ := hflag rfl
    cases hq
    exact ⟨rfl, rfl, rfl, rfl, rfl, rfl, rfl, rfl⟩

theorem exists_configure {setting : Setting} (h : setting? m.1 m.2 = some setting)
    (hs : Sets p.entry [m] e) : ∃ q, configure p setting m.2 = .ok q := by
  obtain ⟨key, value⟩ := m
  obtain ⟨rfl, -⟩ := setting?_eq_some h
  cases setting with
  | shape => exact ⟨p, rfl⟩
  | derives => exact ⟨_, bind_eq_ok_iff.mpr ⟨_, hs.derives, rfl⟩⟩
  | identity => exact ⟨_, bind_eq_ok_iff.mpr ⟨_, hs.identity, rfl⟩⟩
  | children =>
    obtain ⟨spec, hspec, -⟩ := map_eq_ok_iff.mp hs.children
    exact ⟨_, bind_eq_ok_iff.mpr ⟨spec, hspec, rfl⟩⟩
  | gate =>
    obtain ⟨g, hg, -⟩ := map_eq_ok_iff.mp hs.gate
    exact ⟨_, bind_eq_ok_iff.mpr ⟨g, hg, rfl⟩⟩
  | rename => exact ⟨_, bind_eq_ok_iff.mpr ⟨_, hs.display, rfl⟩⟩
  | position => exact ⟨_, rfl⟩

theorem addPair_of_isSetting (h : isSetting m = true) :
    addPair isSum p m.1 m.2 = .ok q ↔ ∃ e, Sets p.entry [m] e ∧ q = { p with entry := e } := by
  obtain ⟨setting, hsetting⟩ := Option.isSome_iff_exists.mp ((isSome_setting? m).trans h)
  have hpair : addPair isSum p m.1 m.2 = configure p setting m.2 := by rw [addPair, hsetting]
  have hforward {q : Partial} (hq : configure p setting m.2 = .ok q) :
      Sets p.entry [m] q.entry ∧ q = { p with entry := q.entry } := by
    obtain ⟨hfields, hvariants⟩ := configure_frame hq
    exact ⟨sets_configure hsetting hq, by rw [← hfields, ← hvariants]⟩
  rw [hpair]
  constructor
  · intro hq
    exact ⟨_, hforward hq⟩
  · rintro ⟨e, hsets, rfl⟩
    obtain ⟨q, hq⟩ := exists_configure hsetting hsets
    obtain ⟨hsets', hq'⟩ := hforward hq
    rwa [hsets.unique hsets', ← hq']

theorem addPair_of_member (h : isSetting m = false) :
    addPair isSum p m.1 m.2 = addMember isSum p m.1 m.2 := by
  have hnone := Option.isSome_eq_false_iff.mp ((isSome_setting? m).trans h)
  rw [addPair, Option.isNone_iff_eq_none.mp hnone]

theorem addMember_sum_eq_ok_iff : addMember true p m.1 m.2 = .ok q ↔
    ∃ v, VariantOf m v ∧ q = { p with variants := p.variants ++ [v] } := by
  constructor
  · intro h
    obtain ⟨hident, ⟨-, v, hv, rfl⟩ | ⟨hfalse, -⟩⟩ := addMember_cases h
    · exact ⟨(m.1, v), ⟨rfl, hident, hv⟩, rfl⟩
    · cases hfalse
  · rintro ⟨⟨_, v⟩, ⟨rfl, hident, hv⟩, rfl⟩
    simp [addMember, hident, hv]

theorem addMember_product_eq_ok_iff : addMember false p m.1 m.2 = .ok q ↔
    ∃ f, FieldOf m f ∧ q = { p with fields := p.fields ++ [f] } := by
  constructor
  · intro h
    obtain ⟨hident, ⟨htrue, -⟩ | ⟨-, text, t, hvalue, ht, rfl⟩⟩ := addMember_cases h
    · cases htrue
    · exact ⟨(m.1, t), ⟨rfl, hident, text, hvalue, ht⟩, rfl⟩
  · obtain ⟨key, value⟩ := m
    rintro ⟨⟨_, t⟩, ⟨rfl, hident, text, rfl, ht⟩, rfl⟩
    simp [addMember, hident, ht]

/-- The members of a sum add variants, and those of a product add fields, in order. -/
def Adds : Bool → Partial → List (String × Value) → Partial → Prop
  | true, p, ms, q => q.fields = p.fields ∧
      ∃ variants, List.Forall₂ VariantOf ms variants ∧ q.variants = p.variants ++ variants
  | false, p, ms, q => q.variants = p.variants ∧
      ∃ fields, List.Forall₂ FieldOf ms fields ∧ q.fields = p.fields ++ fields

theorem adds_nil_iff : Adds isSum p [] q ↔ q.fields = p.fields ∧ q.variants = p.variants := by
  cases isSum <;> simp [Adds, and_comm]

theorem adds_cons_iff : Adds isSum p (m :: ms) q ↔
    ∃ next, addMember isSum p m.1 m.2 = .ok next ∧ Adds isSum next ms q := by
  cases isSum with
  | true =>
    simp only [addMember_sum_eq_ok_iff, Adds, List.forall₂_cons_left_iff]
    constructor
    · rintro ⟨hfields, _, ⟨v, variants, hv, hvariants, rfl⟩, hq⟩
      exact ⟨_, ⟨v, hv, rfl⟩, hfields, variants, hvariants, by simpa using hq⟩
    · rintro ⟨_, ⟨v, hv, rfl⟩, hfields, variants, hvariants, hq⟩
      exact ⟨hfields, _, ⟨v, variants, hv, hvariants, rfl⟩, by simpa using hq⟩
  | false =>
    simp only [addMember_product_eq_ok_iff, Adds, List.forall₂_cons_left_iff]
    constructor
    · rintro ⟨hvariants, _, ⟨f, fields, hf, hfields, rfl⟩, hq⟩
      exact ⟨_, ⟨f, hf, rfl⟩, hvariants, fields, hfields, by simpa using hq⟩
    · rintro ⟨_, ⟨f, hf, rfl⟩, hvariants, fields, hfields, hq⟩
      exact ⟨hvariants, _, ⟨f, fields, hf, hfields, rfl⟩, by simpa using hq⟩

theorem entry_addMember {next : Partial} (h : addMember isSum p m.1 m.2 = .ok next) :
    next.entry = p.entry := by
  obtain ⟨-, ⟨-, v, -, rfl⟩ | ⟨-, text, t, -, -, rfl⟩⟩ := addMember_cases h <;> rfl

/-- The settings of a definition and its other members do not meet. -/
theorem addMembers_eq_ok_iff (distinct : (ms.map Prod.fst).Nodup) :
    addMembers isSum p ms = .ok q ↔ Sets p.entry (ms.filter isSetting) q.entry ∧
      Adds isSum p (ms.filter (!isSetting ·)) q := by
  induction ms generalizing p with
  | nil =>
    simp only [addMembers, Except.ok.injEq, List.filter_nil, adds_nil_iff]
    constructor
    · rintro rfl
      exact ⟨sets_nil _, rfl, rfl⟩
    · rintro ⟨hsets, hfields, hvariants⟩
      have hentry : q.entry = p.entry := hsets.unique (sets_nil _)
      cases p
      cases q
      simp_all
  | cons m ms ih =>
    obtain ⟨fresh, distinct⟩ := List.nodup_cons.mp distinct
    have hstep : addMembers isSum p (m :: ms) = .ok q ↔
        ∃ next, addPair isSum p m.1 m.2 = .ok next ∧ addMembers isSum next ms = .ok q :=
      bind_eq_ok_iff
    simp only [hstep, ih distinct]
    by_cases hm : isSetting m = true
    · rw [List.filter_cons_of_pos hm, List.filter_cons_of_neg (by simp [hm]),
        sets_cons_iff (notMem_keys_filter fresh _)]
      simp only [addPair_of_isSetting hm]
      constructor
      · rintro ⟨_, ⟨e, he, rfl⟩, hsets, hadds⟩
        exact ⟨⟨e, he, hsets⟩, by cases isSum <;> exact hadds⟩
      · rintro ⟨⟨e, he, hsets⟩, hadds⟩
        exact ⟨_, ⟨e, he, rfl⟩, hsets, by cases isSum <;> exact hadds⟩
    · rw [List.filter_cons_of_neg hm, List.filter_cons_of_pos (by simpa using hm), adds_cons_iff,
        addPair_of_member (by simpa using hm)]
      constructor
      · rintro ⟨next, hnext, hsets, hadds⟩
        exact ⟨entry_addMember hnext ▸ hsets, next, hnext, hadds⟩
      · rintro ⟨hsets, next, hnext, hadds⟩
        exact ⟨next, hnext, (entry_addMember hnext).symm ▸ hsets, hadds⟩

end Definitions

/-! ### Entries -/

/-- A definition is a sum if it says so, and a product if it does not say. All members that are no
settings are its variants or its fields, in order. -/
inductive ShapeOf (ms : List (String × Value)) : Shape → Prop where
  | product {fields : Fields} (said : ms.lookup "as" = none)
      (all : List.Forall₂ FieldOf (ms.filter (!isSetting ·)) fields) : ShapeOf ms (.product fields)
  | sum {variants : List (String × Variant)} (said : ms.lookup "as" = some (.text "Enum"))
      (all : List.Forall₂ VariantOf (ms.filter (!isSetting ·)) variants) :
      ShapeOf ms (.sum variants)

variable {name : String} {e : Entry} {ms ns : List (String × Value)}

theorem parseSum_eq_ok_iff {isSum : Bool} : parseSum ms = .ok isSum ↔
    (ms.lookup "as" = none ∧ isSum = false) ∨
      (ms.lookup "as" = some (.text "Enum") ∧ isSum = true) := by
  unfold parseSum
  split
  · next h => simp [h, eq_comm]
  · next t h =>
    split
    · next ht => simp [h, ht, eq_comm]
    · next ht => simp [h, ht]
  · next v hne h =>
    simp only [h, reduceCtorEq, false_and, false_or, Option.some.injEq, false_iff, not_and]
    rintro rfl
    exact absurd rfl (hne "Enum")

theorem Sets.withShape {e' : Entry} (h : Sets e ms e') (shape : Shape) :
    Sets { e with shape } ms { e' with shape } :=
  { h with shape := rfl }

/-- The steps in which a definition is read. -/
theorem parse_eq_ok_iff_steps : parse name (.definition ms) = .ok e ↔
    Name.isIdent name = true ∧ ∃ isSum, parseSum ms = .ok isSum ∧ ∃ p,
      addMembers isSum { entry := { name, displayName := name, shape := .product [] } } ms = .ok p ∧
      { p.entry with shape := if isSum then .sum p.variants else .product p.fields } = e := by
  have hbody : parse name (.definition ms) = .ok e ↔
      Name.isIdent name = true ∧ parseBody name (.definition ms) = .ok e := by
    unfold parse
    cases Name.isIdent name with
    | false => simp
    | true => cases parseBody name (.definition ms) <;> simp
  rw [hbody]
  simp only [parseBody, bind_eq_ok_iff, pure, Except.pure, Except.ok.injEq]

/-- What a definition says, and nothing else, is in the entry that is read from it. -/
theorem parse_eq_ok_iff (distinct : (ms.map Prod.fst).Nodup) :
    parse name (.definition ms) = .ok e ↔ Name.isIdent name = true ∧ ShapeOf ms e.shape ∧
      Sets { name, displayName := name, shape := e.shape } (ms.filter isSetting) e := by
  rw [parse_eq_ok_iff_steps]
  refine and_congr_right fun _ => ?_
  simp only [addMembers_eq_ok_iff distinct, parseSum_eq_ok_iff]
  constructor
  · rintro ⟨isSum, ⟨hsaid, rfl⟩ | ⟨hsaid, rfl⟩, p, ⟨hsets, hadds⟩, rfl⟩
    · obtain ⟨-, fields, hfields, heq⟩ := hadds
      exact ⟨.product hsaid (by simpa [heq] using hfields), hsets.withShape _⟩
    · obtain ⟨-, variants, hvariants, heq⟩ := hadds
      exact ⟨.sum hsaid (by simpa [heq] using hvariants), hsets.withShape _⟩
  · rintro ⟨hshape, hsets⟩
    obtain ⟨name', display, shape, identity, position, gate, children, derives⟩ := e
    cases hshape with
    | @product fields said all =>
      exact ⟨false, .inl ⟨said, rfl⟩, ⟨_, fields, []⟩,
        ⟨hsets.withShape (.product []), rfl, fields, all, rfl⟩, rfl⟩
    | @sum variants said all =>
      exact ⟨true, .inr ⟨said, rfl⟩, ⟨_, [], variants⟩,
        ⟨hsets.withShape (.product []), rfl, variants, all, rfl⟩, rfl⟩

/-! ### Rearrangements -/

/-- A value, or a mapping in which the identity stands in another place. -/
inductive SameValue : Value → Value → Prop where
  | refl (v : Value) : SameValue v v
  | mapping {ms ns : List (String × Value)} (distinct : (ms.map Prod.fst).Nodup)
      (moved : Rearranged isIdentity ms ns) : SameValue (.mapping ms) (.mapping ns)

/-- The same key with such a value. -/
def SameMember (m n : String × Value) : Prop := m.1 = n.1 ∧ SameValue m.2 n.2

theorem Rearranged.distinct {reserved : String × Value → Bool} (h : Rearranged reserved ms ns)
    (distinct : (ms.map Prod.fst).Nodup) : (ns.map Prod.fst).Nodup :=
  (h.perm.map Prod.fst).nodup_iff.mp distinct

theorem Rearranged.under_eq {reserved : String × Value → Bool} (h : Rearranged reserved ms ns)
    (distinct : (ms.map Prod.fst).Nodup) {α : Type} (key : String) (read : Value → Result α)
    (a : α) :
    under key read a (ms.filter reserved) = under key read a (ns.filter reserved) :=
  under_eq_of_perm (h.perm.filter _) (distinct.sublist (List.filter_sublist.map Prod.fst))

theorem Rearranged.parseVariantMembers_iff (h : Rearranged isIdentity ms ns)
    (distinct : (ms.map Prod.fst).Nodup) {variant : String} {acc out : Fields × Bool} :
    parseVariantMembers variant acc ns = .ok out ↔
      parseVariantMembers variant acc ms = .ok out := by
  rw [parseVariantMembers_eq_ok_iff distinct, parseVariantMembers_eq_ok_iff (h.distinct distinct),
    h.under_eq distinct, h.order]

theorem Rearranged.shapeOf (h : Rearranged isSetting ms ns) (distinct : (ms.map Prod.fst).Nodup)
    {shape : Shape} (hs : ShapeOf ms shape) : ShapeOf ns shape := by
  have hlookup := lookup_eq_of_perm h.perm distinct "as"
  cases hs with
  | product said all => exact .product (hlookup ▸ said) (h.order ▸ all)
  | sum said all => exact .sum (hlookup ▸ said) (h.order ▸ all)

theorem Rearranged.sets (h : Rearranged isSetting ms ns) (distinct : (ms.map Prod.fst).Nodup)
    {e' : Entry} (hs : Sets e (ms.filter isSetting) e') : Sets e (ns.filter isSetting) e' where
  name := hs.name
  shape := hs.shape
  derives := (h.under_eq distinct _ _ _).symm.trans hs.derives
  identity := (h.under_eq distinct _ _ _).symm.trans hs.identity
  children := (h.under_eq distinct _ _ _).symm.trans hs.children
  gate := (h.under_eq distinct _ _ _).symm.trans hs.gate
  display := (h.under_eq distinct _ _ _).symm.trans hs.display
  position := (h.under_eq distinct _ _ _).symm.trans hs.position

theorem Rearranged.symm {reserved : String × Value → Bool} (h : Rearranged reserved ms ns) :
    Rearranged reserved ns ms := ⟨h.perm.symm, h.order.symm⟩

theorem Rearranged.parse_of_parse (h : Rearranged isSetting ms ns)
    (distinct : (ms.map Prod.fst).Nodup) (hp : parse name (.definition ms) = .ok e) :
    parse name (.definition ns) = .ok e := by
  obtain ⟨hname, hshape, hsets⟩ := (parse_eq_ok_iff distinct).mp hp
  exact (parse_eq_ok_iff (h.distinct distinct)).mpr
    ⟨hname, h.shapeOf distinct hshape, h.sets distinct hsets⟩

theorem SameValue.parseVariant_iff {v w : Value} (h : SameValue v w) {variant : String}
    {out : Variant} : parseVariant variant w = .ok out ↔ parseVariant variant v = .ok out := by
  cases h with
  | refl v => rfl
  | mapping distinct moved =>
    simp only [parseVariant, bind_eq_ok_iff, moved.parseVariantMembers_iff distinct]

/-- No setting has a mapping for its value. -/
theorem SameValue.addPair_iff {v w : Value} (h : SameValue v w) {isSum : Bool} {p q : Partial}
    {key : String} : addPair isSum p key w = .ok q ↔ addPair isSum p key v = .ok q := by
  have hvariant := @SameValue.parseVariant_iff v w h
  cases h with
  | refl v => rfl
  | @mapping ms ns distinct moved =>
    have hsetting : setting? key (.mapping ns) = setting? key (.mapping ms) := by
      unfold setting?
      split <;> rfl
    unfold addPair
    rw [hsetting]
    cases setting? key (.mapping ms) with
    | some setting => cases setting <;> rfl
    | none =>
      cases isSum with
      | false => rfl
      | true =>
        simp only [addMember, if_true]
        split
        · rfl
        · simp only [bind_eq_ok_iff, hvariant]

theorem addMembers_iff_of_same (h : List.Forall₂ SameMember ms ns) {isSum : Bool} {p q : Partial} :
    addMembers isSum p ns = .ok q ↔ addMembers isSum p ms = .ok q := by
  induction h generalizing p with
  | nil => rfl
  | @cons m n ms ns hmn _ ih =>
    obtain ⟨key, v⟩ := m
    obtain ⟨_, w⟩ := n
    obtain ⟨rfl, hvw⟩ := hmn
    simp only [addMembers, bind_eq_ok_iff, hvw.addPair_iff, ih]

theorem parseSum_eq_of_same (h : List.Forall₂ SameMember ms ns) : parseSum ns = parseSum ms := by
  induction h with
  | nil => rfl
  | @cons m n ms ns hmn _ ih =>
    obtain ⟨key, v⟩ := m
    obtain ⟨_, w⟩ := n
    obtain ⟨rfl, hvw⟩ := hmn
    unfold parseSum at ih ⊢
    rw [List.lookup_cons, List.lookup_cons]
    cases "as" == key with
    | true => cases hvw <;> rfl
    | false => exact ih

/-- Settings say how an entry is configured, and all other members are its fields or variants, in
order. So settings can stand anywhere: other places for them, and other places for the truth values
that say which variants have an identity, make neither an accepted definition wrong, nor a wrong one
accepted, nor another entry. -/
theorem settings_stand_anywhere (name : String) (ms : List (String × Value))
    (distinct : (ms.map Prod.fst).Nodup) :
    (∀ e, parse name (.definition ms) = .ok e → ShapeOf ms e.shape ∧
      Sets { name, displayName := name, shape := e.shape } (ms.filter isSetting) e) ∧
    (∀ ns, Rearranged isSetting ms ns →
      ∀ e, parse name (.definition ns) = .ok e ↔ parse name (.definition ms) = .ok e) ∧
    (∀ ns, List.Forall₂ SameMember ms ns →
      ∀ e, parse name (.definition ns) = .ok e ↔ parse name (.definition ms) = .ok e) := by
  refine ⟨fun e he => ((parse_eq_ok_iff distinct).mp he).2, fun ns h e => ?_, fun ns h e => ?_⟩
  · exact ⟨h.symm.parse_of_parse (h.distinct distinct), h.parse_of_parse distinct⟩
  · simp only [parse_eq_ok_iff_steps, parseSum_eq_of_same h, addMembers_iff_of_same h]

end Entry

namespace Moved

open Entry

/-- A sum whose settings stand before its variants. -/
def early : List (String × Value) :=
  [("as", .text "Enum"), ("rename", .text "Tree"),
    ("Leaf", .mapping [("node", .flag false), ("value", .text "u8")]), ("span", .null)]

/-- The same with the settings at the end. -/
def late : List (String × Value) :=
  [("Leaf", .mapping [("node", .flag false), ("value", .text "u8")]), ("span", .null),
    ("as", .text "Enum"), ("rename", .text "Tree")]

/-- The same with the identity of a variant after its field. -/
def inner : List (String × Value) :=
  [("as", .text "Enum"), ("rename", .text "Tree"),
    ("Leaf", .mapping [("value", .text "u8"), ("node", .flag false)]), ("span", .null)]

def tree : Entry where
  name := "Node"
  displayName := "Tree"
  shape := .sum [("Leaf", .struct [("value", .named "u8")] false), ("span", .unit)]

theorem settings_moved : parse "Node" (.definition late) = .ok tree ∧
    parse "Node" (.definition inner) = .ok tree := by
  have hearly : parse "Node" (.definition early) = .ok tree := by
    with_unfolding_all rfl
  obtain ⟨-, hlate, hinner⟩ := settings_stand_anywhere "Node" early (by decide)
  constructor
  · have hperm : early.Perm late := @List.perm_append_comm _ (early.take 2) (early.drop 2)
    exact (hlate late ⟨hperm, rfl⟩ tree).mpr hearly
  · have hleaf : SameValue (.mapping [("node", .flag false), ("value", .text "u8")])
        (.mapping [("value", .text "u8"), ("node", .flag false)]) :=
      .mapping (by decide) ⟨.swap _ _ _, rfl⟩
    have hsame : List.Forall₂ SameMember early inner :=
      .cons ⟨rfl, .refl _⟩ (.cons ⟨rfl, .refl _⟩ (.cons ⟨rfl, hleaf⟩ (.cons ⟨rfl, .refl _⟩ .nil)))
    exact (hinner inner hsame tree).mpr hearly

end Moved

end TreeSchema
