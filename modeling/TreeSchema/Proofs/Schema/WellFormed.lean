import TreeSchema.Proofs.Schema.Spelled

/-!
# The invariant of loaded schemas

All that the later stages take for granted about entries without looking: which names can stand
where, what is at the bottom of a type, and that an alias is never renamed, gated or configured.
Only the reader of entries can guarantee it, and it does for every draft that it accepts.
-/

namespace TreeSchema

/-- A word that can be used as a name. -/
structure Name.Ident (s : String) : Prop where
  word : isWord s.toList = true
  notUnderscore : s ≠ "_"
  notKeyword : s ∉ keywords

theorem Name.isIdent_iff {s : String} : isIdent s = true ↔ Ident s := by
  simp only [isIdent, isKeyword, Bool.and_eq_true, bne_iff_ne, ne_eq, Bool.not_eq_true',
    List.contains_eq_mem, decide_eq_false_iff_not]
  exact ⟨fun ⟨⟨h, hw⟩, hk⟩ => ⟨hw, h, hk⟩, fun ⟨hw, h, hk⟩ => ⟨⟨h, hw⟩, hk⟩⟩

namespace Shape

/-- The fields of a product, or the variants of a sum. -/
def memberNames : Shape → List String
  | aliasOf _ => []
  | product fields => fields.map Prod.fst
  | sum variants => variants.map Prod.fst

/-- The fields of the variants of a sum. -/
def nestedNames : Shape → List String
  | sum variants => variants.flatMap fun v => (v.2.fields?.getD []).map Prod.fst
  | _ => []

theorem Parsed.memberNames {shape : Shape} (h : shape.Parsed) :
    ∀ n ∈ shape.memberNames, Entry.IsMemberName n := by
  cases shape with
  | aliasOf t => simp [Shape.memberNames]
  | product fields => exact List.forall_mem_map.mpr fun f hf => (h f hf).1
  | sum variants => exact List.forall_mem_map.mpr fun v hv => (h v hv).1

theorem Parsed.nestedNames {shape : Shape} (h : shape.Parsed) :
    ∀ n ∈ shape.nestedNames, Name.isIdent n = true := by
  cases shape with
  | aliasOf t => simp [Shape.nestedNames]
  | product fields => simp [Shape.nestedNames]
  | sum variants =>
    refine List.forall_mem_flatMap.mpr fun v hv => ?_
    obtain ⟨name, variant⟩ := v
    have hparsed : variant.Parsed := (h _ hv).2
    cases variant with
    | unit => simp [Variant.fields?]
    | wrap t => simp [Variant.fields?]
    | struct fields hasId => exact List.forall_mem_map.mpr fun f hf => (hparsed f hf).1

end Shape

/-- A type whose innermost part is the position type or a path that is not its word. -/
def TypeExpr.HasLeaf (t : TypeExpr) : Prop :=
  t.core = .position ∨ ∃ name, t.core = .named name ∧ Name.Path name.toList ∧ name ≠ positionWord

theorem TypeExpr.Parsed.hasLeaf {t : TypeExpr} (h : t.Parsed) : t.HasLeaf := by
  obtain ⟨cs, hwritten⟩ := h.exists_written
  clear h
  induction hwritten with
  | position => exact .inl rfl
  | @named _ name path other => exact .inr ⟨name, rfl, path, other⟩
  | wrap _ _ _ ih => exact ih

theorem ChildRef.isWord_of_parse? {src : String} {r : ChildRef} (h : parse? src = some r) :
    Name.isWord r.field.toList = true := by
  unfold parse? at h
  split at h
  split at h
  split at h
  · next hword => cases h; simpa using hword
  · cases h

namespace Entry

/-- The invariant of one entry. -/
structure WellFormed (e : Entry) : Prop where
  name : Name.Ident e.name
  display : Name.Ident e.displayName
  /-- An alias has none of the settings. -/
  plain : e.isAlias = true → e.displayName = e.name ∧ e.gate = none ∧ e.children = none ∧
    e.extraDerives = [] ∧ e.hasIdentity = true
  /-- No field or variant can be taken for a setting. -/
  members : ∀ n ∈ e.shape.memberNames, Name.Ident n ∧ n ∉ settingWords
  nested : ∀ n ∈ e.shape.nestedNames, Name.Ident n
  types : ∀ t ∈ e.shape.types, t.HasLeaf
  gate : ∀ g ∈ e.gate, g.feature ≠ "" ∧ ∀ c ∈ g.feature.toList, c ≠ '"' ∧ Text.isBlank c = false
  children : ∀ refs, e.children = some (.refs refs) → ∀ r ∈ refs, Name.isWord r.field.toList = true

theorem Parsed.wellFormed {e : Entry} (h : e.Parsed) : e.WellFormed where
  name := Name.isIdent_iff.mp h.name
  display := Name.isIdent_iff.mp h.display
  plain ha := by
    rw [h.plain ha]
    exact ⟨rfl, rfl, rfl, rfl, rfl⟩
  members n hn := ⟨Name.isIdent_iff.mp (h.shape.memberNames n hn).1, (h.shape.memberNames n hn).2⟩
  nested n hn := Name.isIdent_iff.mp (h.shape.nestedNames n hn)
  types t ht := (h.shape.types t ht).hasLeaf
  gate g hg := by
    obtain ⟨src, hsrc⟩ := h.gate g hg
    have hfeature := Gate.isFeature_of_parse? hsrc
    simpa [Gate.isFeature] using hfeature
  children refs hrefs r hr := by
    obtain ⟨src, hsrc⟩ := h.children _ hrefs r hr
    exact ChildRef.isWord_of_parse? hsrc

end Entry

namespace Schema

theorem names_ofDraft {d : Draft} {s : Schema} (h : ofDraft d = .ok s) :
    s.entries.map Entry.name = d.names := by
  unfold ofDraft at h
  split at h
  · cases h
  · next es hes =>
    cases h
    exact names_parseEntries hes

/-- Every draft that is accepted gives a schema with the invariant, with the keys of the draft in
their order. -/
theorem wellFormed_of_ofDraft {d : Draft} {s : Schema} (h : ofDraft d = .ok s) :
    s.entries.map Entry.name = d.names ∧ (∀ e ∈ s.entries, e.WellFormed) ∧
      ∀ n, s.get? n = none → ∀ e ∈ s.resolve n, e.isAlias = false := by
  refine ⟨names_ofDraft h, fun e he => (parsed_ofDraft h e he).wellFormed, ?_⟩
  intro n hn e he
  exact isAlias_of_get?_eq_none (loaded_ofDraft h) hn he

end Schema

namespace Settings

/-! An alias, a product with every setting that it can have, and a sum with fields in a variant. -/

def draft : Draft where
  entries := [
    ("NodeId", .aliasOf "u32"),
    ("Token", .definition [("rename", .text "Word"), ("feature", .text "! slim"),
      ("derive", .text "Copy, std::hash::Hash"), ("node", .flag false), ("span", .text " Span "),
      ("text", .text "Option<String>"), ("children", .list [])]),
    ("Tree", .definition [("as", .text "Enum"), ("Leaf", .null),
      ("Fork", .mapping [("left", .text "Box<Tree>"), ("node", .flag false)]),
      ("children", .list ["self.left?"])])]
  nodup := by decide

def token : Entry :=
  { name := "Token", displayName := "Word", hasIdentity := false, gate := some ⟨"slim", true⟩,
    shape := .product [("span", .position), ("text", .wrap .optional (.named "String"))],
    children := some (.refs []), extraDerives := ["Copy", "std::hash::Hash"] }

def schema : Schema where
  entries := [
    { name := "NodeId", displayName := "NodeId", shape := .aliasOf (.named "u32") },
    token,
    { name := "Tree", displayName := "Tree",
      shape := .sum
        [("Leaf", .unit), ("Fork", .struct [("left", .wrap .box (.named "Tree"))] false)],
      children := some (.refs [⟨"left", true, .optional⟩]) }]
  nodup := by decide

/-- The product is found under the name that it is written under, and is no alias. -/
theorem wellFormed_settings :
    schema.entries.map Entry.name = ["NodeId", "Token", "Tree"] ∧
      (∀ e ∈ schema.entries, e.WellFormed) ∧ schema.resolve "Word" = [token] ∧
      token.isAlias = false := by
  have hs : Schema.ofDraft draft = .ok schema := Schema.ofDraft_eq_ok (by decide +kernel)
  obtain ⟨hnames, hentries, hresolve⟩ := Schema.wellFormed_of_ofDraft hs
  exact ⟨hnames, hentries, rfl, hresolve "Word" (by decide) token (by decide)⟩

end Settings

end TreeSchema
