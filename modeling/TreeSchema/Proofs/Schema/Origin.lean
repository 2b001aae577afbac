import TreeSchema.Proofs.Checked
import TreeSchema.Schema.Load

/-!
# Where the parts of an entry come from

An entry is read from its definition one member at a time. What a member can change is said once
here; going over the members then shows that every name, type, trait, gate and reference in an entry
was accepted by the reader for it.
-/

namespace TreeSchema

open Checked

/-- A type that was read from a text. -/
def TypeExpr.Parsed (t : TypeExpr) : Prop := ∃ src, TypeExpr.parse src = .ok t

/-- A gate that was read from a text. -/
def Gate.Parsed (gate : Option Gate) : Prop := ∀ g ∈ gate, ∃ src, Gate.parse? src = some g

def ChildrenSpec.Parsed : ChildrenSpec → Prop
  | .variants => True
  | .refs items => ∀ r ∈ items, ∃ src, ChildRef.parse? src = some r

/-- Fields under identifiers, with types that were read from texts. -/
def FieldsParsed (fields : Fields) : Prop := ∀ f ∈ fields, Name.isIdent f.1 = true ∧ f.2.Parsed

def Variant.Parsed : Variant → Prop
  | unit => True
  | wrap t => t.Parsed
  | struct fields _ => FieldsParsed fields

/-- The keys that are settings of an entry, whatever their values are. -/
def Entry.settingWords : List String := ["as", "derive", "node", "children", "feature", "rename"]

/-- A name for a field of a product or for a variant of a sum. -/
def Entry.IsMemberName (key : String) : Prop := Name.isIdent key = true ∧ key ∉ settingWords

def Shape.Parsed : Shape → Prop
  | aliasOf t => t.Parsed
  | product fields => ∀ f ∈ fields, Entry.IsMemberName f.1 ∧ f.2.Parsed
  | sum variants => ∀ v ∈ variants, Entry.IsMemberName v.1 ∧ v.2.Parsed

theorem Gate.isFeature_of_parse? {src : String} {g : Gate} (h : Gate.parse? src = some g) :
    isFeature g.feature.toList = true := by
  unfold parse? at h
  split at h
  · split at h
    · next hf => cases h; simpa using hf
    · cases h

theorem Variant.Parsed.types {v : Variant} (h : v.Parsed) : ∀ t ∈ v.types, t.Parsed := by
  cases v with
  | unit => simp [Variant.types]
  | wrap t =>
    intro u hu
    rwa [List.mem_singleton.mp hu]
  | struct fields hasId => exact List.forall_mem_map.mpr fun f hf => (h f hf).2

theorem Shape.Parsed.types {shape : Shape} (h : shape.Parsed) : ∀ t ∈ shape.types, t.Parsed := by
  cases shape with
  | aliasOf t =>
    intro u hu
    rwa [List.mem_singleton.mp hu]
  | product fields => exact List.forall_mem_map.mpr fun f hf => (h f hf).2
  | sum variants => exact List.forall_mem_flatMap.mpr fun v hv => (h v hv).2.types

namespace Entry

open Draft (Value Body)

/-- The settings of an entry were accepted by their readers. -/
structure Configured (e : Entry) : Prop where
  display : Name.isIdent e.displayName = true
  derives : ∀ t ∈ e.extraDerives, Name.isPath t = true
  gate : Gate.Parsed e.gate
  children : ∀ spec ∈ e.children, spec.Parsed

/-- All that is in an entry was accepted by a reader. An alias has no settings. -/
structure Parsed (e : Entry) : Prop extends Configured e where
  name : Name.isIdent e.name = true
  shape : e.shape.Parsed
  plain : e.isAlias = true → e = { name := e.name, displayName := e.name, shape := e.shape }

/-- The same of an entry that is read so far. -/
structure Partial.Parsed (p : Partial) : Prop where
  entry : p.entry.Configured
  fields : ∀ f ∈ p.fields, IsMemberName f.1 ∧ f.2.Parsed
  variants : ∀ v ∈ p.variants, IsMemberName v.1 ∧ v.2.Parsed

/-! ### What a member changes -/

/-- A member of a variant sets its identity or adds a field. -/
theorem parseVariantMember_cases {variant key : String} {value : Value} {acc out : Fields × Bool}
    (h : parseVariantMember variant acc key value = .ok out) :
    (key = "node" ∧ ∃ b, value = .flag b ∧ out = (acc.1, b)) ∨
    (Name.isIdent key = true ∧ ∃ text t, value = .text text ∧ parseType text = .ok t ∧
      out = (acc.1 ++ [(key, t)], acc.2)) := by
  cases value with
  | null => cases h
  | list items => cases h
  | mapping members => cases h
  | flag b =>
    simp only [parseVariantMember] at h
    split at h
    · next hkey => cases h; exact .inl ⟨hkey, b, rfl, rfl⟩
    · cases h
  | text text =>
    simp only [parseVariantMember] at h
    split at h
    · cases h
    · next hkey =>
      obtain ⟨t, ht, hout⟩ := bind_eq_ok_iff.mp h
      cases hout
      exact .inr ⟨by simpa using hkey, text, t, rfl, ht, rfl⟩

/-- A member that is no setting adds a variant to a sum, or a field to a product. -/
theorem addMember_cases {isSum : Bool} {p q : Partial} {key : String} {value : Value}
    (h : addMember isSum p key value = .ok q) : Name.isIdent key = true ∧
    ((isSum = true ∧ ∃ v, parseVariant key value = .ok v ∧
        q = { p with variants := p.variants ++ [(key, v)] }) ∨
      (isSum = false ∧ ∃ text t, value = .text text ∧ parseType text = .ok t ∧
        q = { p with fields := p.fields ++ [(key, t)] })) := by
  unfold addMember at h
  split at h
  · next hsum =>
    split at h
    · cases h
    · next hkey =>
      obtain ⟨v, hv, hq⟩ := bind_eq_ok_iff.mp h
      cases hq
      exact ⟨by simpa using hkey, .inl ⟨hsum, v, hv, rfl⟩⟩
  · next hsum =>
    split at h
    · cases h
    · next hkey =>
      split at h
      · next text =>
        obtain ⟨t, ht, hq⟩ := bind_eq_ok_iff.mp h
        cases hq
        exact ⟨by simpa using hkey, .inr ⟨by simpa using hsum, text, t, rfl, ht, rfl⟩⟩
      · cases h

theorem notMem_settingWords {key : String} {value : Value} (h : setting? key value = none) :
    key ∉ settingWords := by
  intro hkey
  simp only [settingWords, List.mem_cons, List.not_mem_nil, or_false] at hkey
  rcases hkey with rfl | rfl | rfl | rfl | rfl | rfl <;> cases h

/-- A setting touches neither fields nor variants. -/
theorem configure_frame {p q : Partial} {setting : Setting} {value : Value}
    (h : configure p setting value = .ok q) : q.fields = p.fields ∧ q.variants = p.variants := by
  cases setting with
  | shape => cases h; exact ⟨rfl, rfl⟩
  | position => cases h; exact ⟨rfl, rfl⟩
  | derives | identity | children | gate | rename =>
    obtain ⟨x, -, hq⟩ := bind_eq_ok_iff.mp h
    cases hq
    exact ⟨rfl, rfl⟩

/-- What every member keeps is kept by all of them. -/
theorem addMembers_induction {isSum : Bool} {P : Partial → Prop}
    (step : ∀ {p q key value}, addPair isSum p key value = .ok q → P p → P q) {p q : Partial}
    {members : List (String × Value)} (h : addMembers isSum p members = .ok q) (hp : P p) :
    P q := by
  induction members generalizing p with
  | nil => cases h; exact hp
  | cons m rest ih =>
    obtain ⟨key, value⟩ := m
    obtain ⟨next, hm, hrest⟩ := bind_eq_ok_iff.mp h
    exact ih hrest (step hm hp)

/-! ### Members of variants -/

theorem parsed_parseType {text : String} {t : TypeExpr} (h : parseType text = .ok t) :
    t.Parsed := by
  unfold parseType at h
  split at h
  · next u hu => cases h; exact ⟨text, hu⟩
  · cases h

theorem fieldsParsed_parseVariantMembers {variant : String} {members : List (String × Value)}
    {acc out : Fields × Bool} (h : parseVariantMembers variant acc members = .ok out)
    (ha : FieldsParsed acc.1) : FieldsParsed out.1 := by
  induction members generalizing acc with
  | nil => cases h; exact ha
  | cons m rest ih =>
    obtain ⟨key, value⟩ := m
    obtain ⟨next, hm, hrest⟩ := bind_eq_ok_iff.mp h
    refine ih hrest ?_
    obtain ⟨-, b, -, rfl⟩ | ⟨hkey, text, t, -, ht, rfl⟩ := parseVariantMember_cases hm
    · exact ha
    · exact List.forall_mem_append.mpr ⟨ha, by simpa using ⟨hkey, parsed_parseType ht⟩⟩

theorem parsed_parseVariant {variant : String} {value : Value} {v : Variant}
    (h : parseVariant variant value = .ok v) : v.Parsed := by
  unfold parseVariant at h
  split at h
  · cases h; trivial
  · split at h
    · cases h; trivial
    · obtain ⟨t, ht, hv⟩ := bind_eq_ok_iff.mp h
      cases hv
      exact parsed_parseType ht
  · obtain ⟨out, hm, hv⟩ := bind_eq_ok_iff.mp h
    cases hv
    exact fieldsParsed_parseVariantMembers hm (by simp [FieldsParsed])
  · cases h

/-! ### Settings -/

theorem isPath_parseDerives {value : Value} {items : List String}
    (h : parseDerives value = .ok items) : ∀ t ∈ items, Name.isPath t = true := by
  unfold parseDerives at h
  split at h
  case h_3 =>
    obtain ⟨texts, hexpected, -⟩ := bind_eq_ok_iff.mp h
    cases hexpected
  -- A text and a list are checked alike.
  all_goals
    obtain ⟨texts, -, h⟩ := bind_eq_ok_iff.mp h
    dsimp only at h
    split at h
    · cases h
    · next hnone =>
      cases h
      simpa using hnone

theorem parsed_parseGate {value : Value} {g : Gate} (h : parseGate value = .ok g) :
    Gate.Parsed (some g) := by
  unfold parseGate at h
  split at h
  · next t =>
    split at h
    · next g' hg =>
      cases h
      rintro _ ⟨⟩
      exact ⟨t, hg⟩
    · cases h
  · cases h

theorem isIdent_parseRename {value : Value} {name : String} (h : parseRename value = .ok name) :
    Name.isIdent name = true := by
  unfold parseRename at h
  split at h
  · split at h
    · next hi => cases h; exact hi
    · cases h
  · cases h

theorem parsed_parseChild {text : String} {r : ChildRef} (h : parseChild text = .ok r) :
    ∃ src, ChildRef.parse? src = some r := by
  unfold parseChild at h
  split at h
  · next ref href => cases h; exact ⟨text, href⟩
  · cases h

theorem parsed_mapM_parseChild {items : List String} {refs : List ChildRef}
    (h : items.mapM parseChild = .ok refs) : (ChildrenSpec.refs refs).Parsed := by
  induction items generalizing refs with
  | nil =>
    cases h
    simp [ChildrenSpec.Parsed]
  | cons item items ih =>
    rw [List.mapM_cons] at h
    obtain ⟨r, hr, h⟩ := bind_eq_ok_iff.mp h
    obtain ⟨rest, hrest, h⟩ := bind_eq_ok_iff.mp h
    cases h
    exact List.forall_mem_cons.mpr ⟨parsed_parseChild hr, ih hrest⟩

theorem parsed_parseChildren {value : Value} {spec : ChildrenSpec}
    (h : parseChildren value = .ok spec) : spec.Parsed := by
  unfold parseChildren at h
  split at h
  case h_3 =>
    obtain ⟨items, hexpected, -⟩ := bind_eq_ok_iff.mp h
    cases hexpected
  all_goals
    obtain ⟨items, -, h⟩ := bind_eq_ok_iff.mp h
    dsimp only at h
    split at h
    · split at h
      · cases h; trivial
      · obtain ⟨r, hr, h⟩ := bind_eq_ok_iff.mp h
        cases h
        simpa [ChildrenSpec.Parsed] using parsed_parseChild hr
    · obtain ⟨refs, hrefs, h⟩ := bind_eq_ok_iff.mp h
      cases h
      exact parsed_mapM_parseChild hrefs

theorem configured_configure {p q : Partial} {setting : Setting} {value : Value}
    (h : configure p setting value = .ok q) (hp : p.entry.Configured) : q.entry.Configured := by
  cases setting with
  | shape => cases h; exact hp
  | position => cases h; exact { hp with }
  | identity =>
    obtain ⟨b, -, hq⟩ := bind_eq_ok_iff.mp h
    cases hq
    exact { hp with }
  | derives =>
    obtain ⟨items, hitems, hq⟩ := bind_eq_ok_iff.mp h
    cases hq
    exact { hp with derives := isPath_parseDerives hitems }
  | children =>
    obtain ⟨spec, hspec, hq⟩ := bind_eq_ok_iff.mp h
    cases hq
    exact { hp with children := by simpa using parsed_parseChildren hspec }
  | gate =>
    obtain ⟨g, hg, hq⟩ := bind_eq_ok_iff.mp h
    cases hq
    exact { hp with gate := parsed_parseGate hg }
  | rename =>
    obtain ⟨name, hname, hq⟩ := bind_eq_ok_iff.mp h
    cases hq
    exact { hp with display := isIdent_parseRename hname }

/-! ### Entries -/

theorem Partial.Parsed.addMember {isSum : Bool} {p q : Partial} {key : String} {value : Value}
    (hp : p.Parsed) (hkey : key ∉ settingWords) (h : addMember isSum p key value = .ok q) :
    q.Parsed := by
  obtain ⟨hident, ⟨-, v, hv, rfl⟩ | ⟨-, text, t, -, ht, rfl⟩⟩ := addMember_cases h
  · refine { hp with variants := List.forall_mem_append.mpr ⟨hp.variants, ?_⟩ }
    simpa using ⟨⟨hident, hkey⟩, parsed_parseVariant hv⟩
  · refine { hp with fields := List.forall_mem_append.mpr ⟨hp.fields, ?_⟩ }
    simpa using ⟨⟨hident, hkey⟩, parsed_parseType ht⟩

theorem Partial.Parsed.addPair {isSum : Bool} {p q : Partial} {key : String} {value : Value}
    (h : addPair isSum p key value = .ok q) (hp : p.Parsed) : q.Parsed := by
  unfold Entry.addPair at h
  split at h
  · obtain ⟨hfields, hvariants⟩ := configure_frame h
    exact ⟨configured_configure h hp.entry, hfields ▸ hp.fields, hvariants ▸ hp.variants⟩
  · next hkey => exact hp.addMember (notMem_settingWords hkey) h

theorem parsed_parseBody {name : String} {body : Body} {e : Entry} (hn : Name.isIdent name = true)
    (h : parseBody name body = .ok e) : e.Parsed := by
  have hstart (shape : Shape) : Configured { name, displayName := name, shape } :=
    ⟨hn, by simp, by simp [Gate.Parsed], by simp⟩
  cases body with
  | aliasOf target =>
    obtain ⟨t, ht, he⟩ := bind_eq_ok_iff.mp h
    cases he
    exact { hstart (.aliasOf t) with
      name := hn, shape := parsed_parseType ht, plain := fun _ => rfl }
  | definition members =>
    obtain ⟨isSum, -, h⟩ := bind_eq_ok_iff.mp h
    obtain ⟨p, hp, he⟩ := bind_eq_ok_iff.mp h
    cases he
    have hname : p.entry.name = name := name_addMembers hp
    have hparsed : p.Parsed := addMembers_induction Partial.Parsed.addPair hp
      ⟨hstart _, by simp, by simp⟩
    have hsettings := hparsed.entry
    cases isSum with
    | true =>
      exact { hsettings with
        name := hname ▸ hn, shape := hparsed.variants, plain := fun ha => by simp [isAlias] at ha }
    | false =>
      exact { hsettings with
        name := hname ▸ hn, shape := hparsed.fields, plain := fun ha => by simp [isAlias] at ha }

theorem parsed_parse {name : String} {body : Body} {e : Entry} (h : parse name body = .ok e) :
    e.Parsed := by
  unfold parse at h
  split at h
  · cases h
  · next hn =>
    split at h
    · cases h
    · next a ha =>
      cases h
      exact parsed_parseBody (by simpa using hn) ha

end Entry

end TreeSchema
