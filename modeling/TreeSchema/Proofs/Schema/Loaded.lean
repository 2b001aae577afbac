import TreeSchema.Proofs.Schema.Lookup
import TreeSchema.Proofs.Schema.Origin

/-!
# What loading promises

Entries that come out of a draft have identifiers for names, and an alias has neither a gate nor a
name of its own choice.
-/

namespace TreeSchema

/-- Fields under identifiers. -/
def FieldsNamed (fields : Fields) : Prop := ∀ f ∈ fields, Name.isIdent f.1 = true

def Variant.Named : Variant → Prop
  | struct fields _ => FieldsNamed fields
  | _ => True

def VariantsNamed (variants : List (String × Variant)) : Prop :=
  ∀ v ∈ variants, Name.isIdent v.1 = true ∧ v.2.Named

def Shape.Named : Shape → Prop
  | aliasOf _ => True
  | product fields => FieldsNamed fields
  | sum variants => VariantsNamed variants

/-- The promises about one entry. -/
structure Entry.Loaded (e : Entry) : Prop where
  display : Name.isIdent e.displayName = true
  named : e.shape.Named
  plain : e.isAlias = true → e.displayName = e.name ∧ e.gate = none

/-! ### From what was read -/

theorem Variant.Parsed.named {v : Variant} (h : v.Parsed) : v.Named := by
  cases v with
  | unit => trivial
  | wrap t => trivial
  | struct fields hasId => exact fun f hf => (h f hf).1

theorem Shape.Parsed.named {shape : Shape} (h : shape.Parsed) : shape.Named := by
  cases shape with
  | aliasOf t => trivial
  | product fields => exact fun f hf => (h f hf).1.1
  | sum variants => exact fun v hv => ⟨(h v hv).1.1, (h v hv).2.named⟩

theorem Entry.Parsed.loaded {e : Entry} (h : e.Parsed) : e.Loaded where
  display := h.display
  named := h.shape.named
  plain ha := by
    rw [h.plain ha]
    exact ⟨rfl, rfl⟩

namespace Schema

theorem exists_parse_of_mem {items : List (String × Draft.Body)} {es : List Entry}
    (h : parseEntries items = .ok es) {e : Entry} (he : e ∈ es) :
    ∃ name body, Entry.parse name body = .ok e := by
  induction items generalizing es with
  | nil => cases h; cases he
  | cons item rest ih =>
    obtain ⟨name, body⟩ := item
    simp only [parseEntries] at h
    split at h
    · cases h
    · next a ha =>
      split at h
      · cases h
      · next as has =>
        cases h
        rcases List.mem_cons.mp he with rfl | he
        · exact ⟨name, body, ha⟩
        · exact ih has he

theorem ofDraft_eq_ok {d : Draft} {s : Schema} (h : parseEntries d.entries = .ok s.entries) :
    ofDraft d = .ok s := by
  unfold ofDraft
  split
  · next f hf => rw [h] at hf; cases hf
  · next es hes =>
    rw [h] at hes
    cases hes
    rfl

/-- Every entry of a schema that comes from a draft was classified on its own. -/
theorem exists_parse_of_ofDraft {d : Draft} {s : Schema} (h : ofDraft d = .ok s) {e : Entry}
    (he : e ∈ s.entries) : ∃ name body, Entry.parse name body = .ok e := by
  unfold ofDraft at h
  split at h
  · cases h
  · next es hes =>
    cases h
    exact exists_parse_of_mem hes he

theorem parsed_ofDraft {d : Draft} {s : Schema} (h : ofDraft d = .ok s) :
    ∀ e ∈ s.entries, e.Parsed := by
  intro e he
  obtain ⟨name, body, hp⟩ := exists_parse_of_ofDraft h he
  exact Entry.parsed_parse hp

/-- All entries of a schema that comes from a draft keep the promises. -/
theorem loaded_ofDraft {d : Draft} {s : Schema} (h : ofDraft d = .ok s) :
    ∀ e ∈ s.entries, e.Loaded := fun e he => (parsed_ofDraft h e he).loaded

/-- An entry that is found by its written name only is no alias: an alias is found by its name. -/
theorem isAlias_of_get?_eq_none {s : Schema} (hl : ∀ e ∈ s.entries, e.Loaded) {n : String}
    (hn : s.get? n = none) {e : Entry} (he : e ∈ s.resolve n) : e.isAlias = false := by
  rw [resolve, hn, List.mem_filter, beq_iff_eq] at he
  obtain ⟨hmem, hdisplay⟩ := he
  rw [Bool.eq_false_iff]
  intro halias
  have hname : e.displayName = e.name := ((hl e hmem).plain halias).1
  exact get?_eq_none_iff.mp hn e hmem (hname.symm.trans hdisplay)

end Schema

end TreeSchema
