import TreeSchema.Proofs.Document.Json
import TreeSchema.Proofs.Document.Yaml.Event
import TreeSchema.Proofs.Schema.Loaded

/-!
# What follows a schema in its text

In block notation a schema is the only document of its text: white space, comments and ends of
documents may follow it. In bracket notation a schema is the first value of its text, and what
follows the value is ignored.
-/

namespace TreeSchema

open Checked (map_eq_ok_iff)
open Document
open Document.Yaml.Event (EndsDocument Trailer)

theorem Draft.complete_of_ofReading {r : Reading} {d : Draft} (h : ofReading r = .ok d) :
    ∃ es, r = .mapping es .complete := by
  cases r with
  | other found => cases h
  | broken f => cases h
  | mapping es ending =>
    simp only [ofReading] at h
    split at h
    · cases h
    · cases ending with
      | complete => exact ⟨es, rfl⟩
      | broken f => cases h
      | brokenValue key f =>
        simp only [finish] at h
        split at h <;> cases h

namespace Schema

variable {path text : String} {format : Format} {s : Schema}

theorem complete_of_parse (h : parse path format text = .ok s) :
    ∃ es, Document.read format text.toList = .mapping es .complete := by
  unfold parse at h
  split at h
  · cases h
  · next d hd => exact Draft.complete_of_ofReading hd

theorem parse_json_congr {text' : String} (h : Json.read text'.toList = Json.read text.toList) :
    parse path .json text' = parse path .json text := by
  simp only [parse, Draft.parse, Document.read, h]

/-- Where the text of an accepted schema goes: what follows its document or its first value. -/
theorem accepted_text_after_value (path text : String) (s : Schema) :
    (parse path .yaml text = .ok s → ∃ value tail, text.toList = value ++ tail ∧
      EndsDocument text.toList tail ∧ Trailer tail) ∧
    (parse path .json text = .ok s → ∃ value tail, text.toList = value ++ tail ∧
      (∃ body, Json.skipBlanks value = '{' :: (body ++ ['}'])) ∧
      (∀ part, part <+: value → part ≠ value →
        ∀ s', parse path .json (String.ofList part) ≠ .ok s') ∧
      ∀ tail', parse path .json (String.ofList (value ++ tail')) = .ok s) := by
  constructor
  · intro h
    obtain ⟨es, hes⟩ := complete_of_parse h
    have hread : Yaml.readKeeping false text.toList = .mapping es .complete := hes
    obtain ⟨tail, hends, htrailer⟩ :=
      Yaml.Event.trailer_of_ofText (Yaml.wellFormed_of_readKeeping hread)
    obtain ⟨value, hvalue⟩ := hends.suffix
    exact ⟨value, tail, hvalue.symm, hends, htrailer⟩
  · intro h
    obtain ⟨es, hread⟩ := complete_of_parse h
    obtain ⟨value, tail, htext, hbody, hagain, hfirst⟩ := Json.exists_first_value hread
    refine ⟨value, tail, htext, hbody, fun part hshort hne s' hpart => ?_, fun tail' => ?_⟩
    · obtain ⟨es', hread'⟩ := complete_of_parse hpart
      rw [String.toList_ofList] at hread'
      exact hfirst part hshort hne es' hread'
    · rw [← h]
      refine parse_json_congr ?_
      rw [String.toList_ofList, hagain]
      exact hread.symm

end Schema

namespace Trailing

/-! One schema in both notations, each time with something after it. -/

def schema : Schema :=
  ⟨[{ name := "A", displayName := "A", shape := .aliasOf (.named "u8") }], by decide⟩

theorem eq_schema {x : Except Error Schema} (h : x.map Schema.entries = .ok schema.entries) :
    x = .ok schema := by
  obtain ⟨⟨entries, nodup⟩, rfl, hentries⟩ := map_eq_ok_iff.mp h
  cases hentries
  rfl

/-- The document has an end of its own, and a comment follows. -/
def block : String := "A: u8\n...\n# the end"

def value : String := "\x7b\"A\":\"u8\"\x7d"

theorem parse_block : Schema.parse "a.yaml" .yaml block = .ok schema :=
  eq_schema (by decide +kernel)

theorem parse_word : Schema.parse "a.json" .json (value ++ " more") = .ok schema :=
  eq_schema (by decide +kernel)

theorem block_and_word :
    (∃ tail, EndsDocument block.toList tail ∧ Trailer tail) ∧
      ∃ part, part <+: (value ++ " more").toList ∧
        Schema.parse "a.json" .json (String.ofList part) = .ok schema := by
  constructor
  · obtain ⟨-, tail, -, hends, htrailer⟩ :=
      (Schema.accepted_text_after_value "a.yaml" block schema).1 parse_block
    exact ⟨tail, hends, htrailer⟩
  · obtain ⟨part, tail, htext, -, -, hagain⟩ :=
      (Schema.accepted_text_after_value "a.json" (value ++ " more") schema).2 parse_word
    refine ⟨part, ⟨tail, htext.symm⟩, ?_⟩
    rw [← List.append_nil part]
    exact hagain []

/-- Two texts that are accepted and differ after their first value in more than blanks. -/
theorem word_ignored : Schema.parse "a.json" .json value = .ok schema ∧
    Schema.parse "a.json" .json (value ++ " more") = .ok schema ∧
    ¬(" more".toList.all Json.isBlank) :=
  ⟨eq_schema (by decide +kernel), eq_schema (by decide +kernel), by decide⟩

end Trailing

end TreeSchema
