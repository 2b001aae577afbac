/-!
# A place in a text

The characters still to be read, with the number of bytes and lines before them, and of characters
before them on their line.
-/

namespace TreeSchema.Document.Yaml

structure Cursor where
  rest : List Char
  /-- Bytes are counted, so that a wide character takes up more room. -/
  index : Nat := 0
  line : Nat := 0
  column : Nat := 0

/-- The number of bytes of some characters. -/
def byteSize (cs : List Char) : Nat := cs.foldl (fun n c => n + c.utf8Size) 0

/-- The characters that end a line. -/
def isBreak (c : Char) : Bool :=
  c == '\n' || c == '\r' || c.toNat == 0x85 || c.toNat == 0x2028 || c.toNat == 0x2029

/-- The blanks within a line. -/
def isGap (c : Char) : Bool := c == ' ' || c == '\t'

/-- Nothing, a blank or the end of a line. -/
def endsWord : Option Char → Bool
  | none => true
  | some c => isGap c || isBreak c

/-- The characters that a document may hold. -/
def isAllowed (c : Char) : Bool :=
  let n := c.toNat
  n == 0x9 || n == 0xA || n == 0xD || (0x20 ≤ n && n ≤ 0x7E) || n == 0x85 ||
    (0xA0 ≤ n && n ≤ 0xFFFD) || 0x10000 ≤ n

/-- How many bytes of a text are looked at together. -/
def pieceSize : Nat := 16384

/-- The pieces of a text before the first that holds a forbidden character, and whether they are the
whole text. `piece` is what is known of the current piece, in reverse, and `room` what it can still
take. -/
def readable (room : Nat) (piece : List Char) : List Char → List Char × Bool
  | [] => (piece.reverse, true)
  | c :: rest =>
    if c.utf8Size ≤ room then
      if isAllowed c then readable (room - c.utf8Size) (c :: piece) rest else ([], false)
    else if isAllowed c then
      let (text, whole) := readable (pieceSize - c.utf8Size) [c] rest
      (piece.reverse ++ text, whole)
    else (piece.reverse, false)

/-- The characters of anchors, directives and tag handles. -/
def isLabelPart (c : Char) : Bool := c.isAlphanum || c == '_' || c == '-'

namespace Cursor

def peek (cur : Cursor) : Option Char := cur.rest.head?

/-- The character `k` places ahead. -/
def ahead (cur : Cursor) (k : Nat) : Option Char := cur.rest[k]?

def startsWith (cur : Cursor) (text : String) : Bool := text.toList.isPrefixOf cur.rest

/-- Pass over `k` characters of the line. -/
def skip (cur : Cursor) (k : Nat) : Cursor :=
  ⟨cur.rest.drop k, cur.index + byteSize (cur.rest.take k), cur.line, cur.column + k⟩

/-- The characters up to the first that fails `p`, and the place there. -/
def takeWhile (cur : Cursor) (p : Char → Bool) : List Char × Cursor :=
  let taken := cur.rest.takeWhile p
  (taken, cur.skip taken.length)

def skipWhile (cur : Cursor) (p : Char → Bool) : Cursor := (cur.takeWhile p).2

/-- The start of the next line, after the given characters that end this one. -/
def lineAfter (cur : Cursor) (ending : List Char) (rest : List Char) : Cursor :=
  ⟨rest, cur.index + byteSize ending, cur.line + 1, 0⟩

/-- Pass over one line break and give it as text: line feed for all but the two separators. -/
def breakLine (cur : Cursor) : List Char × Cursor :=
  match cur.rest with
  | '\r' :: '\n' :: rest => (['\n'], cur.lineAfter ['\r', '\n'] rest)
  | c :: rest =>
    if c.toNat == 0x2028 || c.toNat == 0x2029 then ([c], cur.lineAfter [c] rest)
    else if isBreak c then (['\n'], cur.lineAfter [c] rest)
    else ([], cur)
  | [] => ([], cur)

/-- A line that consists of three of the same mark separates documents. -/
def atSeparator (cur : Cursor) : Bool :=
  cur.column == 0 && (cur.startsWith "---" || cur.startsWith "...") && endsWord (cur.ahead 3)

end Cursor

end TreeSchema.Document.Yaml
