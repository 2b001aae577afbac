import TreeSchema.Document.Tree
import TreeSchema.Document.Yaml.Event
import TreeSchema.Document.Yaml.Scalar

/-!
# Reading block notation

From events to trees. Aliases are replaced by what they stand for; nesting and the number of
replacements are limited. No schema document has values with tags of one's own or with tags that do
not fit, or integers that 64 bits do not hold: a reader keeps them, marked as refused, or stops at
the first of them.
-/

namespace TreeSchema.Document.Yaml

/-- An event whose alias is known: an alias is the place of the event it stands for. -/
inductive Item where
  | aliasOf (place : Nat)
  | event (event : Event)

/-- A document's events as far as they go, and why they stop. -/
structure Script where
  items : Array Item
  fault : Option Fault

namespace Script

def anchorOf : Event → Option String
  | .scalar _ _ anchor _ => anchor
  | .sequenceStart anchor _ => anchor
  | .mappingStart anchor _ => anchor
  | _ => none

/-- The anchors so far. An anchor's number is the number of distinct names before it, so a name
that is given again takes the number that the next new name will get. -/
structure Anchors where
  numbers : List (String × Nat) := []
  places : List (Nat × Nat) := []

def Anchors.add (a : Anchors) (name : String) (place : Nat) : Anchors :=
  let number := a.numbers.length
  { numbers := (name, number) :: a.numbers.filter (·.1 != name)
    places := (number, place) :: a.places }

/-- Number the aliases, up to the first that names no anchor. -/
def numberAliases : List Event → Nat → Anchors → List (Event ⊕ Nat) × Anchors × Bool
  | [], _, a => ([], a, true)
  | .aliasOf name :: rest, place, a =>
    match a.numbers.lookup name with
    | none => ([], a, false)
    | some number =>
      let (items, a, ok) := numberAliases rest (place + 1) a
      (.inr number :: items, a, ok)
  | e :: rest, place, a =>
    let a := match anchorOf e with
      | some name => a.add name place
      | none => a
    let (items, a, ok) := numberAliases rest (place + 1) a
    (.inl e :: items, a, ok)

def ofText (text : List Char) : Script :=
  let (events, wellFormed) := Event.ofText text
  let (items, anchors, known) := numberAliases events 0 {}
  let place (number : Nat) : Nat := (anchors.places.lookup number).getD 0
  { items := (items.map fun i => match i with
      | .inl e => Item.event e
      | .inr number => Item.aliasOf (place number)).toArray
    fault := if wellFormed && known then none else some .malformed }

/-- The event at a place. -/
def at? (s : Script) (n : Nat) : Option Item := s.items[n]?

/-- Where there is no further event. -/
def stop (s : Script) : Stop := .here (s.fault.getD .malformed)

/-- What a tag asks of its value. -/
inductive Request where
  | bool
  | integer
  | float
  | null
  /-- A tag of one's own, which asks for nothing. -/
  | nothing
  | text

def Request.ofTag (tag : Tag) : Request :=
  if tag = Event.standardTag "bool" then .bool
  else if tag = Event.standardTag "int" then .integer
  else if tag = Event.standardTag "float" then .float
  else if tag = Event.standardTag "null" then .null
  else if tag.head? = some Token.exclamation then .nothing
  else .text

/-- What a scalar stands for by its look. -/
def untagged (text : String) (plain : Bool) : Scalar := if plain then .ofPlain text else .text text

/-- What a scalar stands for: its tag decides, or else its look if it has no quotes. -/
def typed (text : String) (plain : Bool) (tag : Option Tag) : Except Fault Scalar :=
  let wrong (what : String) : Except Fault Scalar :=
    .error (.tag ("invalid value: string " ++ Text.quoted text ++ ", expected " ++ what))
  match tag.map Request.ofTag with
  | none => .ok (untagged text plain)
  | some .bool => ((Scalar.bool? text).map Scalar.bool).elim (wrong "a boolean") .ok
  | some .integer =>
    ((Scalar.integer? text.toList).map Scalar.integer).elim (wrong "an integer") .ok
  | some .float => ((Scalar.float? text.toList).map Scalar.float).elim (wrong "a float") .ok
  | some .null => if Scalar.null? text then .ok .null else wrong "null"
  | some .nothing => .ok (untagged text plain)
  | some .text => .ok (.text text)

/-- A tag of one's own with a name, which may be empty but is a text. -/
def isNamed (tag : Tag) : Bool :=
  tag.head? == some Token.exclamation && (String.fromUTF8? (tag.drop 1).toByteArray).isSome

/-- What is wrong with a value whose tag is a named one of one's own. -/
def named? (tag : Option Tag) : Option Fault :=
  if tag.any isNamed then
    some (.tag "untagged and internally tagged enums do not support enum input")
  else none

/-- The tree of a scalar with its tag. -/
def scalarTree (text : String) (plain : Bool) (tag : Option Tag) : Tree :=
  match named? tag with
  | some f => .refused f (untagged text plain).tree
  | none =>
    match typed text plain tag with
    | .error f => .refused f (untagged text plain).tree
    | .ok scalar => scalar.tree

/-- A reader either keeps refused values or stops there. -/
def pass (keep : Bool) : Tree → Except Stop Tree
  | .refused f t => if keep then .ok (.refused f t) else .error (.here f)
  | t => .ok t

/-- What the tag of a list or a mapping makes of it. -/
def opening (keep : Bool) (tag : Option Tag) : Except Stop (Tree → Tree) :=
  match named? tag with
  | none => .ok id
  | some f => if keep then .ok (.refused f) else .error (.here f)

/-- The step to the value of a key, by what the key means. -/
def meantBranch : Tree → Branch
  | .text s => .key s
  | .integer n => .key (toString n)
  | .bool b => .key (toString b)
  | _ => .unnamed

/-- The step to the value of the key at a place, by how the key is written. -/
def writtenBranch (s : Script) (place : Nat) : Branch :=
  match s.at? place with
  | some (.event (.scalar text _ _ _)) => .key text
  | _ => .unnamed

/-- Where the reader is: the next event, and how many aliases have been replaced. -/
structure Place where
  next : Nat
  replaced : Nat

/-- Replace an alias, unless that was done a hundred times for every event. -/
def replace (s : Script) (p : Place) : Except Stop Place :=
  if p.replaced + 1 > 100 * s.items.size then .error (.here .repetition)
  else .ok { p with replaced := p.replaced + 1 }

section

variable (keep : Bool)

mutual

/-- Read the value at a place inside `depth` more containers at most. -/
def tree (s : Script) : Nat → Nat → Place → Except Stop (Tree × Place)
  | 0, _, _ => .error (.here .malformed)
  | fuel + 1, depth, p =>
    match s.at? p.next with
    | none => .error s.stop
    | some (.aliasOf target) => do
      let q ← s.replace p
      let (t, q) ← tree s fuel depth { q with next := target }
      return (t, { q with next := p.next + 1 })
    | some (.event (.scalar text plain _ tag)) => do
      return (← pass keep (scalarTree text plain tag), { p with next := p.next + 1 })
    | some (.event (.sequenceStart _ tag)) => do
      let hold ← opening keep tag
      match depth with
      | 0 => .error (.here .nesting)
      | depth + 1 =>
        let (items, p) ← trees s fuel depth 0 { p with next := p.next + 1 }
        return (hold (.list items), p)
    | some (.event (.mappingStart _ tag)) => do
      let hold ← opening keep tag
      match depth with
      | 0 => .error (.here .nesting)
      | depth + 1 =>
        let (members, p) ← pairs s fuel depth { p with next := p.next + 1 }
        return (hold (.mapping members), p)
    | some (.event _) => .error (.here .malformed)

/-- Read the values up to the end of a list, from the one with the given index. -/
def trees (s : Script) : Nat → Nat → Nat → Place → Except Stop (List Tree × Place)
  | 0, _, _, _ => .error (.here .malformed)
  | fuel + 1, depth, index, p =>
    match s.at? p.next with
    | some (.event .sequenceEnd) => .ok ([], { p with next := p.next + 1 })
    | _ => do
      let (t, p) ← (tree s fuel depth p).mapError (.below (.item index) (.item index))
      let (ts, p) ← trees s fuel depth (index + 1) p
      return (t :: ts, p)

/-- Read the keys and values up to the end of a mapping. -/
def pairs (s : Script) : Nat → Nat → Place → Except Stop (List (Tree × Tree) × Place)
  | 0, _, _ => .error (.here .malformed)
  | fuel + 1, depth, p =>
    match s.at? p.next with
    | some (.event .mappingEnd) => .ok ([], { p with next := p.next + 1 })
    | _ => do
      let written := s.writtenBranch p.next
      let (k, p) ← (tree s fuel depth p).mapError .inKey
      let (v, p) ← (tree s fuel depth p).mapError (.below (meantBranch k) written)
      let (rest, p) ← pairs s fuel depth p
      return ((k, v) :: rest, p)

end

end

/-- A key of the outermost mapping is a scalar, and its text is the key as it stands. -/
def key (s : Script) (p : Place) : Except Stop (String × Place) :=
  match s.at? p.next with
  | none => .error s.stop
  | some (.aliasOf target) => do
    let q ← s.replace p
    match s.at? target with
    | some (.event e) => return (← ofEvent e, { q with next := p.next + 1 })
    | _ => .error s.stop
  | some (.event e) => do return (← ofEvent e, { p with next := p.next + 1 })
where
  ofEvent : Event → Except Stop String
    | .scalar text _ _ _ => .ok text
    | .sequenceStart _ _ => .error (.here (.key "sequence"))
    | _ => .error (.here (.key "map"))

/-- Enough for every path through the events at the greatest nesting. -/
def fuel (s : Script) : Nat := 300 * (s.items.size + 2)

/-- The entries of the outermost mapping, read one after the other. -/
def entries (keep : Bool) (s : Script) : Nat → Place → List (String × Tree) × Ending
  | 0, _ => ([], .broken (.here .malformed))
  | n + 1, p =>
    match s.at? p.next with
    | some (.event .mappingEnd) => ([], s.fault.elim .complete fun f => .broken (.here f))
    | _ =>
      match s.key p with
      | .error stop => ([], .broken stop.inKey)
      | .ok (k, q) =>
        match s.tree keep s.fuel 127 q with
        | .error stop => ([], .brokenValue k (stop.below (.key k) (s.writtenBranch p.next)))
        | .ok (t, q) =>
          let (rest, ending) := entries keep s n q
          ((k, t) :: rest, ending)

end Script

/-- Read a document, with or without keeping refused values. An empty one is an empty mapping. -/
def readKeeping (keep : Bool) (text : List Char) : Reading :=
  let s := Script.ofText text
  match s.at? 0 with
  | none => s.fault.elim (.mapping [] .complete) .broken
  | some (.event (.mappingStart _ _)) =>
    let (entries, ending) := s.entries keep (s.items.size + 1) ⟨1, 0⟩
    .mapping entries ending
  | some (.event (.scalar text plain _ tag)) =>
    if text.isEmpty && plain then
      .mapping [] (s.fault.elim .complete fun f => .broken (.here f))
    else
      match Script.typed text plain tag with
      | .ok scalar => .other scalar.describe
      | .error f => .broken f
  | some (.event (.sequenceStart _ _)) => .other "sequence"
  | some _ => .broken (s.fault.getD .malformed)

/-- Read a schema document. -/
def read (text : List Char) : Reading := readKeeping false text

end TreeSchema.Document.Yaml
