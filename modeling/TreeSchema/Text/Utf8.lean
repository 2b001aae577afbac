/-!
# Damaged texts

Reading bytes as a text whatever they hold. Bytes that start a character and are not continued as
one are shown together as a single replacement character, and so is each byte that starts none.
-/

namespace TreeSchema.Text

/-- Stands for bytes that make up no character. -/
def replacement : Char := Char.ofNat 0xFFFD

/-- A character of which the first bytes are known. -/
structure Unfinished where
  /-- The bits so far. -/
  bits : Nat
  /-- How many bytes come after the next one. -/
  later : Nat
  /-- The least and the greatest byte that can come next. -/
  least : Nat := 0x80
  greatest : Nat := 0xBF

/-- What a first byte starts; a byte below 128 is a character by itself. -/
def Unfinished.ofFirst? (byte : Nat) : Option Unfinished :=
  if 0xC2 ≤ byte && byte ≤ 0xDF then some { bits := byte - 0xC0, later := 0 }
  else if 0xE0 ≤ byte && byte ≤ 0xEF then
    some { bits := byte - 0xE0, later := 1,
           least := if byte == 0xE0 then 0xA0 else 0x80,
           greatest := if byte == 0xED then 0x9F else 0xBF }
  else if 0xF0 ≤ byte && byte ≤ 0xF4 then
    some { bits := byte - 0xF0, later := 2,
           least := if byte == 0xF0 then 0x90 else 0x80,
           greatest := if byte == 0xF4 then 0x8F else 0xBF }
  else none

/-- The characters known after a first byte, and the one that it starts. -/
def startAt (byte : Nat) : List Char × Option Unfinished :=
  if byte < 0x80 then ([Char.ofNat byte], none)
  else
    match Unfinished.ofFirst? byte with
    | some u => ([], some u)
    | none => ([replacement], none)

/-- One byte more. -/
def continueWith (byte : Nat) : Option Unfinished → List Char × Option Unfinished
  | none => startAt byte
  | some u =>
    if u.least ≤ byte && byte ≤ u.greatest then
      let bits := 64 * u.bits + (byte - 0x80)
      match u.later with
      | 0 => ([Char.ofNat bits], none)
      | n + 1 => ([], some { bits, later := n })
    else
      let (chars, next) := startAt byte
      (replacement :: chars, next)

/-- The characters of bytes that come after an unfinished character. -/
def decodeFrom : Option Unfinished → List UInt8 → List Char
  | none, [] => []
  | some _, [] => [replacement]
  | u, byte :: rest =>
    let (chars, next) := continueWith byte.toNat u
    chars ++ decodeFrom next rest

/-- The text that some bytes spell, with every damaged part replaced. -/
def decodeDamaged (bytes : List UInt8) : String := String.ofList (decodeFrom none bytes)

end TreeSchema.Text
