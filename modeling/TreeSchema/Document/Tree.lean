/-!
# Document trees

What a schema document says once its notation has been read: a tree of scalars, lists and
mappings. A reading keeps the entries of the outermost mapping in order and says how the text
ends, so that an early entry can be judged although the text is broken further on.
-/

namespace TreeSchema.Document

/-- Why a text stops being a document. -/
inductive Fault where
  /-- The notation is broken. -/
  | malformed
  /-- Containers are nested more deeply than the reader follows. -/
  | nesting
  /-- Repeated parts of the document are used too often. -/
  | repetition
  /-- A tag that no schema document has, or that its value does not fit. -/
  | tag (description : String)
  /-- A key of the outermost mapping that is not a scalar, in words. -/
  | key (found : String)
  /-- An integer that 64 bits do not hold. -/
  | wide (value : Int)
  deriving DecidableEq, Repr

/-- A value below the outermost mapping. The value of a fraction plays no part in a schema. -/
inductive Tree where
  | null
  | bool (value : Bool)
  | integer (value : Int)
  | fraction
  | text (value : String)
  | list (items : List Tree)
  | mapping (members : List (Tree × Tree))
  /-- A value that no schema document has, and why. A reader of schema documents stops there. -/
  | refused (fault : Fault) (value : Tree)

/-- A step from a value to one inside it. -/
inductive Branch where
  | key (name : String)
  | item (index : Nat)
  /-- Below a key that has no name. -/
  | unnamed
  deriving DecidableEq, Repr

namespace Branch

/-- How a step is written at the start of a way. -/
def first : Branch → String
  | key name => name
  | item index => s!"[{index}]"
  | unnamed => "?"

/-- How a step is written after others: keys follow a dot. -/
def later (b : Branch) : String :=
  match b with
  | item _ => b.first
  | _ => "." ++ b.first

/-- The way from the top of a document, where a dot alone is the top. -/
def way : List Branch → String
  | [] => "."
  | b :: rest => b.first ++ String.join (rest.map later)

end Branch

/-- An integer that 64 bits do not hold, with a sign or without. -/
def isWide (n : Int) : Bool := n < -(Nat.pow 2 63 : Nat) || n ≥ (Nat.pow 2 64 : Nat)

/-- An integer in words. -/
def describeInteger (n : Int) : String :=
  if !isWide n then s!"integer `{n}`"
  else if n < 0 then s!"integer `{n}` as i128"
  else s!"integer `{n}` as u128"

/-- The way from a value to one inside it: by what the keys mean, and by how they are written. -/
structure Way where
  meant : List Branch
  written : List Branch
  deriving DecidableEq, Repr

/-- The end of a reading before the end of its value: why, and how far into the value. -/
structure Stop where
  fault : Fault
  way : Way
  deriving DecidableEq, Repr

namespace Stop

/-- A stop at the value itself. -/
def here (f : Fault) : Stop := ⟨f, [], []⟩

/-- A stop in a value as a stop in what holds the value. -/
def below (meant written : Branch) (s : Stop) : Stop :=
  ⟨s.fault, meant :: s.way.meant, written :: s.way.written⟩

/-- The way to a stop in a key: the number of a wide key names it, and there is no name for what is
inside a key or for a key that is not known. -/
def keyWay : Fault → List Branch → List Branch
  | .wide n, [] => [.key (toString n)]
  | _, _ => [.unnamed]

/-- A stop in a key, or before it, as a stop in its mapping. -/
def inKey (s : Stop) : Stop := ⟨s.fault, keyWay s.fault s.way.meant, s.way.written⟩

end Stop

/-- How the outermost mapping ends. -/
inductive Ending where
  | complete
  /-- After the last entry, before another key is known. -/
  | broken (stop : Stop)
  /-- After a key, before its value is known. -/
  | brokenValue (key : String) (stop : Stop)

/-- What stands at the top of a document. -/
inductive Reading where
  | mapping (entries : List (String × Tree)) (ending : Ending)
  /-- A well-formed value that is not a mapping, in words. -/
  | other (description : String)
  /-- Not even the first value could be read. -/
  | broken (fault : Fault)

/-- The notation of a document. -/
inductive Format where
  | yaml
  | json
  deriving DecidableEq, Repr

end TreeSchema.Document
