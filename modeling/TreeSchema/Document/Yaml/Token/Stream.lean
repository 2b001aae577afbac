import TreeSchema.Document.Yaml.Token.Text

/-!
# Token streams

Tokens are found one after the other, on demand. A scalar, alias or bracket may turn out to be a
key only when the colon after it is reached, so a token is held back as long as it may be one;
indentation is turned into tokens of its own.
-/

namespace TreeSchema.Document.Yaml

/-- A token that may yet turn out to start a key. -/
structure Candidate where
  /-- The token must be a key, because it stands at the indentation of a mapping. -/
  required : Bool
  /-- How many tokens come before it in the whole stream. -/
  number : Nat
  index : Nat
  line : Nat
  column : Nat

structure Stream where
  cursor : Cursor
  /-- Nothing follows the characters of the cursor; otherwise what follows cannot be read. -/
  whole : Bool := true
  /-- Tokens found and not yet taken. -/
  queue : List Token := []
  /-- How many tokens have been taken. -/
  taken : Nat := 0
  /-- How many flow brackets are open. -/
  flow : Nat := 0
  /-- One more than the column of the innermost block, zero outside all blocks. -/
  margin : Nat := 0
  /-- The margins of the blocks around it. -/
  outer : List Nat := []
  /-- A key may start here. -/
  keyAllowed : Bool := true
  /-- For every open flow bracket and the block around them, the token that may be a key. -/
  candidates : List (Option Candidate) := [none]

namespace Stream

/-- A text as far as it can be read. -/
def ofChars (text : List Char) : Stream :=
  let (rest, whole) := readable pieceSize [] text
  { cursor := { rest }, whole }

def inFlow (s : Stream) : Bool := s.flow != 0

def push (s : Stream) (t : Token) : Stream := { s with queue := s.queue ++ [t] }

/-- Append a token that ends at the given place. -/
def pushAt (s : Stream) (t : Token) (cur : Cursor) : Stream :=
  { s with queue := s.queue ++ [t], cursor := cur }

/-- Put a token in front of the token with the given number. -/
def insertAt (s : Stream) (number : Nat) (t : Token) : Stream :=
  let k := number - s.taken
  { s with queue := s.queue.take k ++ t :: s.queue.drop k }

/-- A key must fit on one line and into 1024 bytes. -/
def isStale (cur : Cursor) (c : Candidate) : Bool :=
  c.line < cur.line || c.index + 1024 < cur.index

/-- Give up the candidates that are too far away; one that had to be a key is an error. -/
def dropStale (s : Stream) : Option Stream :=
  let stale (c : Option Candidate) : Bool := c.any (isStale s.cursor)
  if s.candidates.any fun c => stale c && c.any (·.required) then none
  else some { s with candidates := s.candidates.map fun c => if stale c then none else c }

/-- Give up the innermost candidate; one that had to be a key is an error. -/
def forgetKey (s : Stream) : Option Stream :=
  match s.candidates with
  | some c :: rest => if c.required then none else some { s with candidates := none :: rest }
  | _ => some s

/-- Remember that the next token may be a key. -/
def saveKey (s : Stream) : Option Stream :=
  if !s.keyAllowed then some s
  else
    let cur := s.cursor
    let candidate : Candidate := {
      required := !s.inFlow && s.margin == cur.column + 1
      number := s.taken + s.queue.length
      index := cur.index
      line := cur.line
      column := cur.column }
    (forgetKey s).map fun s => { s with candidates := some candidate :: s.candidates.drop 1 }

/-- Open a block at a column further right than the current one. -/
def indentTo (s : Stream) (column : Nat) (insert : Stream → Stream) : Stream :=
  if s.inFlow || s.margin > column then s
  else insert { s with margin := column + 1, outer := s.margin :: s.outer }

/-- Close the blocks whose margin is above the limit. -/
def closeBlocks (limit : Nat) : Nat → List Nat → List Token → List Token × Nat × List Nat
  | margin, [], queue => (queue, margin, [])
  | margin, next :: rest, queue =>
    if margin > limit then closeBlocks limit next rest (queue ++ [.blockEnd])
    else (queue, margin, next :: rest)

def dedentTo (s : Stream) (limit : Nat) : Stream :=
  if s.inFlow then s
  else
    let (queue, margin, outer) := closeBlocks limit s.margin s.outer s.queue
    { s with queue, margin, outer }

/-- Pass over blanks, comments and line breaks. Tabs are blanks only where no key may start, and a
byte order mark only at the start of a line. -/
def skipToToken (s : Stream) : Nat → Cursor → Bool → Cursor × Bool
  | 0, cur, keyAllowed => (cur, keyAllowed)
  | fuel + 1, cur, keyAllowed =>
    let cur := if cur.column == 0 && cur.peek.any (·.toNat == 0xFEFF) then cur.skip 1 else cur
    let cur := cur.skipWhile fun c => c == ' ' || ((s.inFlow || !keyAllowed) && c == '\t')
    let cur := if cur.peek == some '#' then cur.skipWhile fun c => !isBreak c else cur
    if cur.peek.any isBreak then
      skipToToken s fuel cur.breakLine.2 (keyAllowed || !s.inFlow)
    else (cur, keyAllowed)

/-- A document separator, directive or the end ends all blocks. -/
def closeAll (s : Stream) : Option Stream :=
  (forgetKey (s.dedentTo 0)).map fun s => { s with keyAllowed := false }

def fetchEnd (s : Stream) : Option Stream :=
  let cur := s.cursor
  let cur := if cur.column == 0 then cur else { cur with column := 0, line := cur.line + 1 }
  (closeAll { s with cursor := cur }).map (·.push .streamEnd)

def fetchDirective (s : Stream) : Option Stream := do
  let s ← s.closeAll
  let (token, cur) ← Token.readDirective s.cursor
  return s.pushAt token cur

def fetchSeparator (s : Stream) (token : Token) : Option Stream := do
  let s ← s.closeAll
  return s.pushAt token (s.cursor.skip 3)

def fetchOpen (s : Stream) (token : Token) : Option Stream := do
  let s ← s.saveKey
  let s := { s with flow := s.flow + 1, candidates := none :: s.candidates, keyAllowed := true }
  return s.pushAt token (s.cursor.skip 1)

def fetchClose (s : Stream) (token : Token) : Option Stream := do
  let s ← s.forgetKey
  let s := if s.inFlow then { s with flow := s.flow - 1, candidates := s.candidates.drop 1 } else s
  let s := { s with keyAllowed := false }
  return s.pushAt token (s.cursor.skip 1)

def fetchFlowEntry (s : Stream) : Option Stream := do
  let s ← s.forgetKey
  return { s with keyAllowed := true }.pushAt .flowEntry (s.cursor.skip 1)

/-- In a block, entries and keys may start only where a key may. -/
def startBlock (s : Stream) (token : Token) : Option Stream :=
  if s.inFlow then some s
  else if !s.keyAllowed then none
  else some (s.indentTo s.cursor.column (·.push token))

def fetchBlockEntry (s : Stream) : Option Stream := do
  let s ← s.startBlock .blockSequenceStart
  let s ← s.forgetKey
  return { s with keyAllowed := true }.pushAt .blockEntry (s.cursor.skip 1)

def fetchKey (s : Stream) : Option Stream := do
  let s ← s.startBlock .blockMappingStart
  let s ← s.forgetKey
  return { s with keyAllowed := !s.inFlow }.pushAt .key (s.cursor.skip 1)

/-- A colon turns the innermost candidate into a key, or stands after an explicit or empty one. -/
def fetchValue (s : Stream) : Option Stream := do
  let s ← match s.candidates with
    | some c :: rest =>
      let s := s.insertAt c.number .key
      let s := s.indentTo c.column (·.insertAt c.number .blockMappingStart)
      some { s with candidates := none :: rest, keyAllowed := false }
    | _ => (s.startBlock .blockMappingStart).map fun s => { s with keyAllowed := !s.inFlow }
  return s.pushAt .value (s.cursor.skip 1)

/-- Read a token that may be a key. -/
def fetchWord (s : Stream) (read : Cursor → Option (Token × Cursor)) : Option Stream := do
  let s ← s.saveKey
  let (token, cur) ← read s.cursor
  return { s with keyAllowed := false }.pushAt token cur

def fetchBlock (s : Stream) (literal : Bool) : Option Stream := do
  let s ← s.forgetKey
  let (text, cur) ← Token.readBlock literal s.margin (s.cursor.skip 1)
  return { s with keyAllowed := true }.pushAt (.scalar (String.ofList text) false) cur

def fetchQuoted (s : Stream) (single : Bool) : Option Stream :=
  s.fetchWord fun cur => do
    let (text, cur) ← Token.readQuoted single (cur.rest.length + 1) [] (cur.skip 1)
    return (.scalar (String.ofList text) false, cur)

/-- After a plain scalar that ends with its line, a key may start. -/
def fetchPlain (s : Stream) : Option Stream := do
  let s ← s.saveKey
  let cur := s.cursor
  let (text, broken, cur) ← Token.readPlain s.inFlow s.margin (cur.rest.length + 1) {} [] cur
  return { s with keyAllowed := broken }.pushAt (.scalar (String.ofList text) true) cur

/-- The marks that no plain scalar starts with, unless an exception applies. -/
def isIndicator (c : Char) : Bool :=
  "-?:,[]\x7b\x7d#&*!|>\"%@`".toList.contains c || c.toNat == 39

def startsPlain (s : Stream) (c : Char) (next : Option Char) : Bool :=
  !(isGap c || isIndicator c) || (c == '-' && !next.any isGap) ||
    (!s.inFlow && (c == '?' || c == ':') && !endsWord next)

/-- Find the token at a place where one starts. -/
def fetchAt (s : Stream) : Option Stream :=
  let cur := s.cursor
  match cur.peek with
  | none => s.fetchEnd
  | some c =>
    let next := cur.ahead 1
    if cur.column == 0 && c == '%' then s.fetchDirective
    else if cur.atSeparator then
      s.fetchSeparator (if c == '-' then .documentStart else .documentEnd)
    else if c == '[' then s.fetchOpen .flowSequenceStart
    else if c == '{' then s.fetchOpen .flowMappingStart
    else if c == ']' then s.fetchClose .flowSequenceEnd
    else if c == '}' then s.fetchClose .flowMappingEnd
    else if c == ',' then s.fetchFlowEntry
    else if c == '-' && endsWord next then s.fetchBlockEntry
    else if c == '?' && (s.inFlow || endsWord next) then s.fetchKey
    else if c == ':' && (s.inFlow || endsWord next) then s.fetchValue
    else if c == '*' then
      s.fetchWord fun cur => (Token.readLabel cur).map fun (l, cur) => (.aliasOf l, cur)
    else if c == '&' then
      s.fetchWord fun cur => (Token.readLabel cur).map fun (l, cur) => (.anchor l, cur)
    else if c == '!' then s.fetchWord (Token.readTag s.inFlow)
    else if c == '|' && !s.inFlow then s.fetchBlock true
    else if c == '>' && !s.inFlow then s.fetchBlock false
    else if c.toNat == 39 then s.fetchQuoted true
    else if c == '"' then s.fetchQuoted false
    else if s.startsPlain c next then s.fetchPlain
    else none

/-- There are `k` characters ahead, or it is known that there are not. -/
def canSee (s : Stream) (k : Nat) : Option Stream :=
  if s.whole || s.cursor.rest.length ≥ k then some s else none

/-- Find the next token or tokens. A separator takes four characters to tell. -/
def fetch (s : Stream) : Option Stream := do
  let (cursor, keyAllowed) := s.skipToToken (s.cursor.rest.length + 1) s.cursor s.keyAllowed
  let s ← dropStale { s with cursor, keyAllowed }
  let s ← (s.dedentTo (s.cursor.column + 1)).canSee 4
  s.fetchAt.bind (·.canSee 1)

/-- Find tokens until the first one is known not to need a key in front of it. -/
def ensure : Nat → Stream → Option Stream
  | 0, _ => none
  | fuel + 1, s =>
    if s.queue.isEmpty then s.fetch.bind (ensure fuel)
    else
      match s.dropStale with
      | none => none
      | some s =>
        if s.candidates.any fun c => c.any (·.number == s.taken) then s.fetch.bind (ensure fuel)
        else some s

/-- The first token, found if need be. -/
def peek (s : Stream) : Option (Token × Stream) := do
  let s ← ensure (s.cursor.rest.length + 3) s
  let t ← s.queue.head?
  return (t, s)

/-- Take the first token. -/
def drop (s : Stream) : Stream := { s with queue := s.queue.drop 1, taken := s.taken + 1 }

/-- The token after the first. -/
def peekNext (s : Stream) : Option (Token × Stream) := s.drop.peek

end Stream

end TreeSchema.Document.Yaml
