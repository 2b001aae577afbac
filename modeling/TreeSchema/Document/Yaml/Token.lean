import TreeSchema.Document.Yaml.Cursor
import TreeSchema.Text.Quoted

/-!
# Tokens

The marks and words of a document, before they are put together.
-/

namespace TreeSchema.Document.Yaml

/-- A tag, or a part of one, is made of bytes, because escapes can spell any. -/
abbrev Tag := List UInt8

inductive Token where
  | streamEnd
  | version (major minor : Nat)
  | tagDirective (handle : String) (meaning : Tag)
  | documentStart
  | documentEnd
  | blockSequenceStart
  | blockMappingStart
  | blockEnd
  | flowSequenceStart
  | flowSequenceEnd
  | flowMappingStart
  | flowMappingEnd
  | blockEntry
  | flowEntry
  | key
  | value
  | aliasOf (name : String)
  | anchor (name : String)
  | tag (handle : String) (suffix : Tag)
  /-- A scalar, and whether it is written without quotes or a block header. -/
  | scalar (text : String) (plain : Bool)
  deriving DecidableEq, Repr

namespace Token

/-- A number of at most nine digits. -/
def readNumber (cur : Cursor) : Option (Nat × Cursor) :=
  let (digits, cur) := cur.takeWhile Char.isDigit
  if digits.isEmpty || digits.length > 9 then none
  else some (digits.foldl (fun n c => 10 * n + (c.toNat - '0'.toNat)) 0, cur)

/-- A handle: one mark, or a label between two. -/
def readHandle (inDirective : Bool) (cur : Cursor) : Option (String × Cursor) :=
  if cur.peek != some '!' then none
  else
    let (label, next) := (cur.skip 1).takeWhile isLabelPart
    if next.peek == some '!' then some (String.ofList ('!' :: label ++ ['!']), next.skip 1)
    else if inDirective && !label.isEmpty then none
    else some (String.ofList ('!' :: label), next)

def isUriPart (verbatim : Bool) (c : Char) : Bool :=
  isLabelPart c || ";/?:@&=+$.%!~*()".toList.contains c || c.toNat == 39 ||
    (verbatim && ",[]".toList.contains c)

/-- How many escapes come after one that spells the first byte of a character. -/
def laterEscapes? (first : Nat) : Option Nat :=
  if first < 0x80 then some 0
  else if first / 32 == 6 then some 1
  else if first / 16 == 14 then some 2
  else if first / 8 == 30 then some 3
  else none

/-- The bytes of a text in which all but escapes stands for itself. The escapes of a character
stand together: `owed` more of them belong to the one before. -/
def unescape : Nat → List Char → Option Tag
  | 0, [] => some []
  | _ + 1, [] => none
  | owed, '%' :: a :: b :: rest => do
    let byte ← Text.hexNumber? [a, b]
    let owed ← match owed with
      | 0 => laterEscapes? byte
      | n + 1 => if byte / 64 == 2 then some n else none
    return byte.toUInt8 :: (← unescape owed rest)
  | _ + 1, _ :: _ => none
  | 0, c :: rest => do
    if c == '%' then none else return c.toNat.toUInt8 :: (← unescape 0 rest)

/-- The part of a tag after its handle, which starts with what the handle's label left over. A zero
byte ends it early. -/
def readUri (verbatim : Bool) (start : List Char) (mayBeEmpty : Bool) (cur : Cursor) :
    Option (Tag × Cursor) := do
  let (taken, next) := cur.takeWhile (isUriPart verbatim)
  if taken.isEmpty && start.isEmpty && !mayBeEmpty then none
  else
    let bytes ← unescape 0 (start ++ taken)
    return (bytes.takeWhile (· != 0), next)

/-- The byte of an exclamation mark. -/
def exclamation : UInt8 := 33

/-- A tag: verbatim in angle brackets, or a handle and a suffix. -/
def readTag (inFlow : Bool) (cur : Cursor) : Option (Token × Cursor) := do
  let (token, next) ←
    if cur.ahead 1 == some '<' then
      let (suffix, next) ← readUri true [] false (cur.skip 2)
      if next.peek == some '>' then some (Token.tag "" suffix, next.skip 1) else none
    else
      let (handle, next) ← readHandle false cur
      if handle.length > 1 && handle.endsWith "!" then
        let (suffix, next) ← readUri false [] false next
        some (Token.tag handle suffix, next)
      else
        let (suffix, next) ← readUri false (handle.toList.drop 1) true next
        if suffix.isEmpty then some (Token.tag "" [exclamation], next)
        else some (Token.tag "!" suffix, next)
  if endsWord next.peek || (inFlow && next.peek == some ',') then some (token, next) else none

/-- The label of an anchor or alias, after its mark. -/
def readLabel (cur : Cursor) : Option (String × Cursor) :=
  let (label, next) := (cur.skip 1).takeWhile isLabelPart
  let ended := endsWord next.peek || next.peek.any fun c => "?:,]\x7d%@`".toList.contains c
  if label.isEmpty || !ended then none else some (String.ofList label, next)

/-- What a directive says, after its name. -/
def readDirectiveBody (name : String) (cur : Cursor) : Option (Token × Cursor) := do
  let cur := cur.skipWhile isGap
  if name == "YAML" then
    let (major, cur) ← readNumber cur
    if cur.peek != some '.' then none
    else
      let (minor, cur) ← readNumber (cur.skip 1)
      return (.version major minor, cur)
  else if name == "TAG" then
    let (handle, cur) ← readHandle true cur
    if !cur.peek.any isGap then none
    else
      let (meaning, cur) ← readUri true [] false (cur.skipWhile isGap)
      if endsWord cur.peek then return (.tagDirective handle meaning, cur) else none
  else none

/-- The rest of a line that may hold only a comment. -/
def readLineEnd (cur : Cursor) : Option Cursor :=
  let cur := cur.skipWhile isGap
  let cur := if cur.peek == some '#' then cur.skipWhile fun c => !isBreak c else cur
  match cur.peek with
  | none => some cur
  | some c => if isBreak c then some cur.breakLine.2 else none

def readDirective (cur : Cursor) : Option (Token × Cursor) := do
  let (name, cur) := (cur.skip 1).takeWhile isLabelPart
  if name.isEmpty || !endsWord cur.peek then none
  else
    let (token, cur) ← readDirectiveBody (String.ofList name) cur
    let cur ← readLineEnd cur
    return (token, cur)

end Token

end TreeSchema.Document.Yaml
