import TreeSchema.Name

/-!
# Child references

How an entry of the schema says which of its fields hold child nodes.
-/

namespace TreeSchema

inductive ChildMark where
  | required
  /-- The field may hold nothing. -/
  | optional
  /-- The field is declared but never walked. -/
  | excluded
  deriving DecidableEq, Repr

structure ChildRef where
  field : String
  /-- The field belongs to the variants of a sum. -/
  qualified : Bool
  mark : ChildMark
  deriving DecidableEq, Repr

namespace ChildRef

/-- Split a trailing question or exclamation mark off. -/
def splitMark (cs : List Char) : List Char × ChildMark :=
  match cs.getLast? with
  | some '?' => (cs.dropLast, .optional)
  | some '!' => (cs.dropLast, .excluded)
  | _ => (cs, .required)

/-- Split a leading `self.` off. -/
def splitSelf : List Char → Bool × List Char
  | 's' :: 'e' :: 'l' :: 'f' :: '.' :: rest => (true, rest)
  | cs => (false, cs)

def parse? (src : String) : Option ChildRef :=
  let (qualified, rest) := splitSelf (Text.trimChars src.toList)
  let (field, mark) := splitMark rest
  if Name.isWord field then some ⟨String.ofList field, qualified, mark⟩ else none

end ChildRef

/-- The children that an entry declares. -/
inductive ChildrenSpec where
  /-- The payloads of the variants themselves. -/
  | variants
  | refs (refs : List ChildRef)
  deriving DecidableEq, Repr

end TreeSchema
