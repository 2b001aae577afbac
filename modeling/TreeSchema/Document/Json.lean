import TreeSchema.Decimal.Layout
import TreeSchema.Document.Tree
import TreeSchema.Text.Quoted

/-!
# Reading bracket notation

The strict notation with quoted keys. Reading stops after the first value, whatever follows.
-/

namespace TreeSchema.Document.Json

/-- The four blanks. -/
def isBlank (c : Char) : Bool := c == ' ' || c == '\n' || c == '\t' || c == '\r'

def skipBlanks (cs : List Char) : List Char := cs.dropWhile isBlank

/-- Four hexadecimal digits. -/
def readUnit? : List Char → Option (Nat × List Char)
  | a :: b :: c :: d :: rest => (Text.hexNumber? [a, b, c, d]).map fun n => (n, rest)
  | _ => none

/-- A code point from one unit, or from a pair of surrogates. -/
def readCodePoint? (cs : List Char) : Option (Char × List Char) := do
  let (high, rest) ← readUnit? cs
  if 0xD800 ≤ high && high < 0xDC00 then
    match rest with
    | '\\' :: 'u' :: rest =>
      let (low, rest) ← readUnit? rest
      if 0xDC00 ≤ low && low < 0xE000 then
        return (Char.ofNat (0x10000 + (high - 0xD800) * 0x400 + (low - 0xDC00)), rest)
      else none
    | _ => none
  else if 0xDC00 ≤ high && high < 0xE000 then none
  else return (Char.ofNat high, rest)

/-- The escapes of one letter. -/
def escaped? (c : Char) : Option Char :=
  match c with
  | '"' => some '"'
  | '\\' => some '\\'
  | '/' => some '/'
  | 'b' => some (Char.ofNat 8)
  | 'f' => some (Char.ofNat 12)
  | 'n' => some '\n'
  | 'r' => some '\r'
  | 't' => some '\t'
  | _ => none

/-- Read a text after its opening quote, and the closing quote. -/
def readText : Nat → List Char → List Char → Option (String × List Char)
  | 0, _, _ => none
  | fuel + 1, text, cs =>
    match cs with
    | [] => none
    | '"' :: rest => some (String.ofList text.reverse, rest)
    | '\\' :: 'u' :: rest =>
      (readCodePoint? rest).bind fun (c, rest) => readText fuel (c :: text) rest
    | '\\' :: c :: rest => (escaped? c).bind fun c => readText fuel (c :: text) rest
    | c :: rest =>
      if c.toNat < 32 || c == '\\' then none else readText fuel (c :: text) rest

/-- A number as written: sign, digits before and after the point, exponent. -/
structure Numeral where
  negative : Bool
  whole : List Char
  fraction : Option (List Char)
  exponent : Option (Bool × List Char)

/-- Digits, at least one. -/
def readDigits? (cs : List Char) : Option (List Char × List Char) :=
  let digits := cs.takeWhile Char.isDigit
  if digits.isEmpty then none else some (digits, cs.dropWhile Char.isDigit)

/-- A minus, or nothing. -/
def readMinus : List Char → Bool × List Char
  | '-' :: rest => (true, rest)
  | cs => (false, cs)

/-- A minus, a plus, or nothing. -/
def readSign : List Char → Bool × List Char
  | '+' :: rest => (false, rest)
  | cs => readMinus cs

/-- A point and digits, or nothing. -/
def readFraction? : List Char → Option (Option (List Char) × List Char)
  | '.' :: rest => (readDigits? rest).map fun (d, rest) => (some d, rest)
  | cs => some (none, cs)

/-- The letter of an exponent, its sign and digits, or nothing. -/
def readExponent? : List Char → Option (Option (Bool × List Char) × List Char)
  | [] => some (none, [])
  | c :: rest =>
    if c == 'e' || c == 'E' then
      (readDigits? (readSign rest).2).map fun (d, more) => (some ((readSign rest).1, d), more)
    else some (none, c :: rest)

/-- A numeral; zero is the only one that starts with the digit zero. -/
def readNumeral? (cs : List Char) : Option (Numeral × List Char) := do
  let (whole, rest) ← readDigits? (readMinus cs).2
  if whole.length > 1 && whole.head? == some '0' then none
  else
    let (fraction, rest) ← readFraction? rest
    let (exponent, rest) ← readExponent? rest
    return (⟨(readMinus cs).1, whole, fraction, exponent⟩, rest)

namespace Numeral

/-- Take digits as long as the value fits into 64 bits; the others are only counted. -/
def gather (value : Nat) : List Char → Nat × List Char
  | [] => (value, [])
  | c :: cs =>
    let next := 10 * value + (c.toNat - 48)
    if next < Nat.pow 2 64 then gather next cs else (value, c :: cs)

/-- Divide or multiply by powers of ten, each a double. The result may be infinite. -/
def scale : Nat → Float → Int → Float
  | 0, x, _ => x
  | fuel + 1, x, e =>
    if e.natAbs ≤ 308 then
      let power := Float.ofScientific 1 false e.natAbs
      if e ≥ 0 then x * power else x / power
    else if x == 0.0 then x
    else if e ≥ 0 then 1.0 / 0.0
    else scale fuel (x / 1e308) (e + 308)

/-- The double that a numeral stands for. -/
def toFloat (n : Numeral) : Float :=
  let (value, dropped) := gather 0 n.whole
  let (value, rest) := gather value (n.fraction.getD [])
  let kept := (n.fraction.getD []).length - rest.length
  let written : Int := match n.exponent with
    | none => 0
    | some (down, digits) =>
      let e : Int := digits.foldl (fun a c => min (10 * a + (c.toNat - 48)) (Nat.pow 2 31 - 1)) 0
      if down then -e else e
  let e := max (-100000) (min 100000 ((dropped.length : Int) - kept + written))
  let x := scale 400 value.toUInt64.toFloat e
  if n.negative then -x else x

/-- The integer that a numeral without point and exponent stands for, if it fits 64 bits. A
negative zero is no integer. -/
def integer? (n : Numeral) : Option Int :=
  if n.fraction.isSome || n.exponent.isSome then none
  else
    let (value, dropped) := gather 0 n.whole
    if !dropped.isEmpty then none
    else if !n.negative then some value
    else if value == 0 || value > Nat.pow 2 63 then none
    else some (-(value : Int))

def inRange (n : Numeral) : Bool := n.integer?.isSome || !n.toFloat.isInf

/-- A numeral in words, as the thing found where a mapping was wanted. -/
def describe (n : Numeral) : String :=
  match n.integer? with
  | some value => describeInteger value
  | none => "floating point `" ++ Decimal.render .compact n.toFloat ++ "`"

end Numeral

/-- Read a numeral in the range of doubles. -/
def readNumber? (cs : List Char) : Option (Numeral × List Char) :=
  (readNumeral? cs).filter (·.1.inRange)

/-- What follows a word, if the text starts with it. -/
def afterWord? (word : String) (cs : List Char) : Option (List Char) :=
  if word.toList.isPrefixOf cs then some (cs.drop word.length) else none

def orMalformed {α : Type} : Option α → Except Stop α
  | some a => .ok a
  | none => .error (.here .malformed)

/-- Read a quoted key. -/
def readKey (fuel : Nat) (cs : List Char) : Except Stop (String × List Char) :=
  match cs with
  | '"' :: rest => orMalformed (readText fuel [] rest)
  | _ => .error (.here .malformed)

/-- Read the colon between a key and its value. -/
def readColon (cs : List Char) : Except Stop (List Char) :=
  match skipBlanks cs with
  | ':' :: rest => .ok rest
  | _ => .error (.here .malformed)

/-- After an item: a comma and another one, or the closing bracket. -/
def readSeparator (close : Char) (cs : List Char) : Except Stop (Bool × List Char) :=
  match skipBlanks cs with
  | c :: rest =>
    if c == ',' then .ok (true, rest)
    else if c == close then .ok (false, rest)
    else .error (.here .malformed)
  | [] => .error (.here .malformed)

/-- What stops in the value of a key. -/
def inValue {α : Type} (k : String) (x : Except Stop α) : Except Stop α :=
  x.mapError (.below (.key k) (.key k))

/-- What stops at an item of a list. -/
def inItem {α : Type} (index : Nat) (x : Except Stop α) : Except Stop α :=
  x.mapError (.below (.item index) (.item index))

mutual

/-- Read a value inside `depth` more containers at most. -/
def readTree : Nat → Nat → List Char → Except Stop (Tree × List Char)
  | 0, _, _ => .error (.here .malformed)
  | fuel + 1, depth, cs =>
    match skipBlanks cs with
    | '"' :: rest => do
      let (s, rest) ← orMalformed (readText fuel [] rest)
      return (.text s, rest)
    | '[' :: rest => match depth with
      | 0 => .error (.here .nesting)
      | depth + 1 => match skipBlanks rest with
        | ']' :: rest => .ok (.list [], rest)
        | _ => do
          let (items, rest) ← readItems fuel depth 0 rest
          return (.list items, rest)
    | '{' :: rest => match depth with
      | 0 => .error (.here .nesting)
      | depth + 1 => match skipBlanks rest with
        | '}' :: rest => .ok (.mapping [], rest)
        | rest => do
          let (members, rest) ← readMembers fuel depth rest
          return (.mapping members, rest)
    | 'n' :: rest => do return (.null, ← orMalformed (afterWord? "ull" rest))
    | 't' :: rest => do return (.bool true, ← orMalformed (afterWord? "rue" rest))
    | 'f' :: rest => do return (.bool false, ← orMalformed (afterWord? "alse" rest))
    | cs => do
      let (n, rest) ← orMalformed (readNumber? cs)
      return (n.integer?.elim .fraction .integer, rest)
termination_by structural fuel => fuel

/-- Read the items of a list that is not empty, from the one with the given index. What stands
after an item belongs to the next one. -/
def readItems : Nat → Nat → Nat → List Char → Except Stop (List Tree × List Char)
  | 0, _, _, _ => .error (.here .malformed)
  | fuel + 1, depth, index, cs => do
    let (t, rest) ← inItem index (readTree fuel depth cs)
    let (more, rest) ← inItem (index + 1) (readSeparator ']' rest)
    if more then
      let (ts, rest) ← readItems fuel depth (index + 1) rest
      return (t :: ts, rest)
    else return ([t], rest)

/-- Read the members of a mapping that is not empty. -/
def readMembers : Nat → Nat → List Char → Except Stop (List (Tree × Tree) × List Char)
  | 0, _, _ => .error (.here .malformed)
  | fuel + 1, depth, cs => do
    let (k, rest) ← (readKey fuel (skipBlanks cs)).mapError .inKey
    let (t, rest) ← inValue k do readTree fuel depth (← readColon rest)
    let (more, rest) ← (readSeparator '}' rest).mapError .inKey
    if more then
      let (ts, rest) ← readMembers fuel depth rest
      return ((.text k, t) :: ts, rest)
    else return ([(.text k, t)], rest)

end

/-- Read the entries of the outermost mapping, from a place where a key must stand. -/
def readEntries (inner : Nat) : Nat → List Char → List (String × Tree) × Ending
  | 0, _ => ([], .broken (.here .malformed))
  | fuel + 1, cs =>
    match readKey inner (skipBlanks cs) with
    | .error stop => ([], .broken stop.inKey)
    | .ok (k, rest) =>
      match (readColon rest).bind (readTree inner 126) with
      | .error stop => ([], .brokenValue k (stop.below (.key k) (.key k)))
      | .ok (t, rest) =>
        match readSeparator '}' rest with
        | .error stop => ([(k, t)], .broken stop.inKey)
        | .ok (false, _) => ([(k, t)], .complete)
        | .ok (true, rest) =>
          let (entries, ending) := readEntries inner fuel rest
          ((k, t) :: entries, ending)

def otherIf (found : Option String) : Reading := found.elim (.broken .malformed) .other

/-- Read a document: only its first value is looked at. -/
def read (text : List Char) : Reading :=
  let fuel := 2 * text.length + 2
  match skipBlanks text with
  | '{' :: rest => match skipBlanks rest with
    | '}' :: _ => .mapping [] .complete
    | rest =>
      let (entries, ending) := readEntries fuel fuel rest
      .mapping entries ending
  | '[' :: _ => .other "sequence"
  | '"' :: rest => otherIf ((readText fuel [] rest).map fun r => "string " ++ Text.quoted r.1)
  | 'n' :: rest => otherIf ((afterWord? "ull" rest).map fun _ => "null")
  | 't' :: rest => otherIf ((afterWord? "rue" rest).map fun _ => "boolean `true`")
  | 'f' :: rest => otherIf ((afterWord? "alse" rest).map fun _ => "boolean `false`")
  | cs => otherIf ((readNumber? cs).map (·.1.describe))

end TreeSchema.Document.Json
