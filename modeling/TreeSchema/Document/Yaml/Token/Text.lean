import TreeSchema.Document.Yaml.Token

/-!
# Scalar texts

The four ways to write a scalar: plain, in single quotes, in double quotes, and as an indented
block. Line breaks inside the first three are folded.
-/

namespace TreeSchema.Document.Yaml

/-- The blanks and line breaks between two pieces of a scalar. -/
structure Gap where
  /-- Blanks before any line break. -/
  blanks : List Char := []
  broken : Bool := false
  first : List Char := []
  more : List Char := []

namespace Gap

/-- A single line break becomes a blank, several lose the first. -/
def text (g : Gap) : List Char :=
  if !g.broken then g.blanks
  else if g.first.head? == some '\n' then (if g.more.isEmpty then [' '] else g.more)
  else g.first ++ g.more

/-- Read blanks and line breaks. A tab left of column `margin` on a later line is an error. -/
def read (margin : Nat) : Nat → Gap → Cursor → Option (Gap × Cursor)
  | 0, _, _ => none
  | fuel + 1, g, cur =>
    match cur.peek with
    | none => some (g, cur)
    | some c =>
      if isGap c then
        if g.broken && c == '\t' && cur.column < margin then none
        else if g.broken then read margin fuel g (cur.skip 1)
        else read margin fuel { g with blanks := g.blanks ++ [c] } (cur.skip 1)
      else if isBreak c then
        let (text, next) := cur.breakLine
        if g.broken then read margin fuel { g with more := g.more ++ text } next
        else read margin fuel { g with blanks := [], broken := true, first := text } next
      else some (g, cur)

end Gap

namespace Token

def isFlowMark (c : Char) : Bool := ",[]\x7b\x7d".toList.contains c

/-- The characters of a plain scalar up to a blank or a mark that ends it. Inside flow brackets a
colon directly before another mark is an error. -/
def plainRun (inFlow : Bool) : List Char → Option (List Char)
  | [] => some []
  | c :: rest =>
    if endsWord (some c) then some []
    else if inFlow && c == ':' && rest.head?.any (fun d => isFlowMark d || d == '?') then none
    else if (c == ':' && endsWord rest.head?) || (inFlow && isFlowMark c) then some []
    else (plainRun inFlow rest).map (c :: ·)

/-- Read a plain scalar from a place where one may start. The flag says that it was ended by a
line break. -/
def readPlain (inFlow : Bool) (margin : Nat) :
    Nat → Gap → List Char → Cursor → Option (List Char × Bool × Cursor)
  | 0, _, _, _ => none
  | fuel + 1, gap, text, cur =>
    if cur.atSeparator || cur.peek == some '#' then some (text, gap.broken, cur)
    else
      match plainRun inFlow cur.rest with
      | none => none
      | some taken =>
        let next := cur.skip taken.length
        let text := if taken.isEmpty then text else text ++ gap.text ++ taken
        let gap : Gap := if taken.isEmpty then gap else {}
        match next.peek with
        | none => some (text, gap.broken, next)
        | some c =>
          if !endsWord (some c) then some (text, gap.broken, next)
          else
            match Gap.read margin (next.rest.length + 1) gap next with
            | none => none
            | some (gap, next) =>
              if !inFlow && next.column < margin then some (text, gap.broken, next)
              else readPlain inFlow margin fuel gap text next

/-- The escapes of one letter. -/
def simpleEscape? (c : Char) : Option Nat :=
  match c with
  | '0' => some 0
  | 'a' => some 7
  | 'b' => some 8
  | 't' => some 9
  | '\t' => some 9
  | 'n' => some 10
  | 'v' => some 11
  | 'f' => some 12
  | 'r' => some 13
  | 'e' => some 27
  | ' ' => some 32
  | '"' => some 34
  | '/' => some 47
  | '\\' => some 92
  | 'N' => some 0x85
  | '_' => some 0xA0
  | 'L' => some 0x2028
  | 'P' => some 0x2029
  | _ => none

/-- The number of hexadecimal digits after an escape letter. -/
def escapeWidth? (c : Char) : Option Nat :=
  match c with
  | 'x' => some 2
  | 'u' => some 4
  | 'U' => some 8
  | _ => none

/-- A scalar value, written in hexadecimal digits. -/
def hexChar? (digits : List Char) : Option Char := do
  let n ← Text.hexNumber? digits
  if h : n.isValidChar then some (Char.ofNatAux n h) else none

/-- Read what follows a backslash, which is not a line break. -/
def readEscape (cur : Cursor) : Option (Char × Cursor) := do
  let c ← cur.peek
  match simpleEscape? c with
  | some n => some (Char.ofNat n, cur.skip 1)
  | none =>
    let width ← escapeWidth? c
    let digits := (cur.rest.drop 1).take width
    if digits.length < width then none
    else
      let char ← hexChar? digits
      some (char, cur.skip (width + 1))

/-- Read the inside of a quoted scalar up to a blank or the closing quote. The flag says that an
escaped line break was passed. -/
def quotedRun (single : Bool) : Nat → List Char → Cursor → Option (List Char × Bool × Cursor)
  | 0, _, _ => none
  | fuel + 1, text, cur =>
    match cur.peek with
    | none => some (text, false, cur)
    | some c =>
      if endsWord (some c) then some (text, false, cur)
      else if single && c.toNat == 39 && cur.ahead 1 == some c then
        quotedRun single fuel (text ++ [c]) (cur.skip 2)
      else if c.toNat == (if single then 39 else 34) then some (text, false, cur)
      else if !single && c == '\\' then
        if (cur.ahead 1).any isBreak then some (text, true, (cur.skip 1).breakLine.2)
        else
          match readEscape (cur.skip 1) with
          | none => none
          | some (char, next) => quotedRun single fuel (text ++ [char]) next
      else quotedRun single fuel (text ++ [c]) (cur.skip 1)

/-- Read a quoted scalar after its opening quote, and the closing quote. -/
def readQuoted (single : Bool) : Nat → List Char → Cursor → Option (List Char × Cursor)
  | 0, _, _ => none
  | fuel + 1, text, cur =>
    if cur.atSeparator || cur.rest.isEmpty then none
    else
      match quotedRun single (cur.rest.length + 1) text cur with
      | none => none
      | some (text, escaped, next) =>
        if next.peek.any fun c => c.toNat == (if single then 39 else 34) then
          some (text, next.skip 1)
        else
          match Gap.read 0 (next.rest.length + 1) { broken := escaped } next with
          | none => none
          | some (gap, next) => readQuoted single fuel (text ++ gap.text) next

/-- What happens to the line breaks at the end of a block scalar. -/
inductive Chomp where
  | strip
  | clip
  | keep
  deriving DecidableEq

def chomp? (c : Option Char) : Option Chomp :=
  match c with
  | some '+' => some .keep
  | some '-' => some .strip
  | _ => none

/-- An indentation digit; zero is refused. -/
def readIndicator (cur : Cursor) : Option (Option Nat × Cursor) :=
  match cur.peek with
  | some c =>
    if !c.isDigit then some (none, cur)
    else if c == '0' then none
    else some (some (c.toNat - '0'.toNat), cur.skip 1)
  | none => some (none, cur)

/-- The marks after the one that starts a block scalar, in either order. -/
def readBlockHeader (cur : Cursor) : Option (Chomp × Option Nat × Cursor) :=
  match chomp? cur.peek with
  | some chomp => (readIndicator (cur.skip 1)).map fun (n, cur) => (chomp, n, cur)
  | none =>
    match readIndicator cur with
    | none => none
    | some (none, cur) => some (.clip, none, cur)
    | some (some n, cur) =>
      match chomp? cur.peek with
      | some chomp => some (chomp, some n, cur.skip 1)
      | none => some (.clip, some n, cur)

/-- Read the empty lines before the next line of a block scalar, and the blanks of its
indentation. `widest` is the widest indentation so far; without a known indentation all blanks
count. -/
def readBlockBreaks (indent : Option Nat) :
    Nat → Nat → List Char → Cursor → Option (List Char × Nat × Cursor)
  | 0, _, _, _ => none
  | fuel + 1, widest, breaks, cur =>
    let room := match indent with
      | none => cur.rest.length
      | some n => n - cur.column
    let blanks := (cur.rest.take room).takeWhile (· == ' ')
    let cur := cur.skip blanks.length
    let widest := max widest cur.column
    let inside := match indent with
      | none => true
      | some n => cur.column < n
    match cur.peek with
    | none => some (breaks, widest, cur)
    | some c =>
      if inside && c == '\t' then none
      else if isBreak c then
        let (text, next) := cur.breakLine
        readBlockBreaks indent fuel widest (breaks ++ text) next
      else some (breaks, widest, cur)

/-- The lines of a block scalar at a known indentation: `pending` is the break after the line
before, `breaks` the empty lines since. -/
def readBlockLines (literal : Bool) (indent : Nat) :
    Nat → (text pending breaks : List Char) → (afterBlank : Bool) → Cursor →
      Option (List Char × List Char × List Char × Cursor)
  | 0, _, _, _, _, _ => none
  | fuel + 1, text, pending, breaks, afterBlank, cur =>
    if cur.column != indent || cur.rest.isEmpty then some (text, pending, breaks, cur)
    else
      let startsBlank := cur.peek.any isGap
      let joint :=
        if !literal && pending.head? == some '\n' && !afterBlank && !startsBlank then
          (if breaks.isEmpty then [' '] else [])
        else pending
      let (line, next) := cur.takeWhile fun c => !isBreak c
      let (pending, next) := next.breakLine
      match readBlockBreaks (some indent) (next.rest.length + 1) 0 [] next with
      | none => none
      | some (more, _, next) =>
        readBlockLines literal indent fuel (text ++ joint ++ breaks ++ line) pending more
          startsBlank next

/-- Read a block scalar after the mark that starts it. `outer` is one more than the indentation
around it. -/
def readBlock (literal : Bool) (outer : Nat) (cur : Cursor) : Option (List Char × Cursor) := do
  let (chomp, indicator, cur) ← readBlockHeader cur
  let cur ← readLineEnd cur
  let given := indicator.map fun n => outer - 1 + n
  let (breaks, widest, cur) ← readBlockBreaks given (cur.rest.length + 1) 0 [] cur
  let indent := given.getD (max (max widest outer) 1)
  let (text, pending, breaks, cur) ←
    readBlockLines literal indent (cur.rest.length + 2) [] [] breaks false cur
  return match chomp with
    | .strip => (text, cur)
    | .clip => (text ++ pending, cur)
    | .keep => (text ++ pending ++ breaks, cur)

end Token

end TreeSchema.Document.Yaml
