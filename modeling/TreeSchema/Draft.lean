import TreeSchema.Document.Json
import TreeSchema.Document.Yaml.Reading

/-!
# Drafts

A schema document whose structure is right: a mapping whose keys differ, from names to texts or to
mappings of the values that a definition may hold. `Draft.ofReading` accepts exactly these and
reports the first entry that is wrong.
-/

namespace TreeSchema

/-- Read a schema document in either notation. -/
def Document.read : Document.Format → List Char → Document.Reading
  | .yaml, text => Yaml.read text
  | .json, text => Json.read text

namespace Draft

/-- A value under a key of a definition. -/
inductive Value where
  | null
  | flag (value : Bool)
  | text (value : String)
  | list (items : List String)
  | mapping (members : List (String × Value))

/-- What an entry says. -/
inductive Body where
  /-- Another name for a type. -/
  | aliasOf (target : String)
  | definition (members : List (String × Value))

/-- A value in words. -/
def Value.describe : Value → String
  | null => "null"
  | flag _ => "a boolean"
  | text _ => "a string"
  | list _ => "a list"
  | mapping _ => "a mapping"

open Document (Tree Reading Ending)

def textOf? : Tree → Option String
  | .text s => some s
  | _ => none

mutual

/-- A value made only of what a definition may hold. -/
def valueOf? : Tree → Option Value
  | .null => some .null
  | .bool b => some (.flag b)
  | .integer _ => none
  | .fraction => none
  | .refused _ _ => none
  | .text s => some (.text s)
  | .list items => (items.mapM textOf?).map .list
  | .mapping members => (membersOf? members).map .mapping

/-- Members with different keys, all of them texts. -/
def membersOf? : List (Tree × Tree) → Option (List (String × Value))
  | [] => some []
  | (k, t) :: rest => do
    let key ← textOf? k
    let value ← valueOf? t
    let rest ← membersOf? rest
    if (rest.map Prod.fst).contains key then none else some ((key, value) :: rest)

end

def bodyOf? : Tree → Option Body
  | .text s => some (.aliasOf s)
  | .mapping members => (membersOf? members).map .definition
  | _ => none

/-- What is wrong with the structure of a document. -/
inductive Fault where
  | notMapping (found : String)
  | repeatedKey (key : String)
  /-- An entry that is neither a text nor a mapping of allowed values. -/
  | entry (key : String)
  /-- The text itself is broken, at the end of a way from its top. -/
  | document (way : Document.Way) (fault : Document.Fault)
  deriving DecidableEq, Repr

end Draft

/-- A schema document: entries with different names, in order. -/
structure Draft where
  entries : List (String × Draft.Body)
  nodup : (entries.map Prod.fst).Nodup

namespace Draft

def empty : Draft := ⟨[], List.nodup_nil⟩

def names (d : Draft) : List String := d.entries.map Prod.fst

/-- Append an entry whose name is new. -/
def push (d : Draft) (name : String) (body : Body) (h : name ∉ d.names) : Draft :=
  ⟨d.entries ++ [(name, body)], by
    rw [List.map_append]
    refine List.nodup_append.mpr ⟨d.nodup, by simp, ?_⟩
    intro a ha b hb
    simp only [List.map_cons, List.map_nil, List.mem_singleton] at hb
    subst hb
    exact fun he => h (he ▸ ha)⟩

open Document (Tree Reading Ending)

/-- A key is looked at before its value. -/
def pushTree (d : Draft) (key : String) (t : Tree) : Except Fault Draft :=
  if h : key ∈ d.names then .error (.repeatedKey key)
  else
    match bodyOf? t with
    | none => .error (.entry key)
    | some body => .ok (d.push key body h)

/-- How the mapping ends is judged after its entries. -/
def finish (d : Draft) : Ending → Except Fault Draft
  | .complete => .ok d
  | .broken stop => .error (.document stop.way stop.fault)
  | .brokenValue key stop =>
    if key ∈ d.names then .error (.repeatedKey key) else .error (.document stop.way stop.fault)

/-- The entries in turn, up to the first that is wrong. -/
def pushTrees (d : Draft) : List (String × Tree) → Except Fault Draft
  | [] => .ok d
  | (key, t) :: rest =>
    match d.pushTree key t with
    | .error f => .error f
    | .ok d => d.pushTrees rest

def ofReading : Reading → Except Fault Draft
  | .other found => .error (.notMapping found)
  | .broken f => .error (.document ⟨[], []⟩ f)
  | .mapping entries ending =>
    match empty.pushTrees entries with
    | .error f => .error f
    | .ok d => d.finish ending

/-- Read a text in either notation. -/
def parse (format : Document.Format) (text : String) : Except Fault Draft :=
  ofReading (Document.read format text.toList)

end Draft

end TreeSchema
