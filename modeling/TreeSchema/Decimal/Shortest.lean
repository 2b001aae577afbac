/-!
# Shortest decimals

The decimal with the fewest digits that lies closer to a given binary fraction than to any other
of the same precision, found by trying one digit more at a time on exact numbers.
-/

namespace TreeSchema

/-- A non-negative number `digits · 10 ^ exponent`. -/
structure Decimal where
  digits : Nat
  exponent : Int
  deriving DecidableEq, Repr

namespace Decimal

/-- The absolute value of a finite double as `significand · 2 ^ exponent`. -/
structure Binary where
  significand : Nat
  exponent : Int
  /-- The neighbour below is only half as far away as the one above. -/
  atPower : Bool
  deriving DecidableEq, Repr

def Binary.ofFloat (x : Float) : Binary :=
  let bits := x.toBits.toNat
  let unit := Nat.pow 2 52
  let field := bits / unit % Nat.pow 2 11
  let fraction := bits % unit
  if field == 0 then ⟨fraction, -1074, false⟩
  else ⟨fraction + unit, (field : Int) - 1075, fraction == 0 && field > 1⟩

def isNegative (x : Float) : Bool := x.toBits.toNat / Nat.pow 2 63 == 1

/-- Multiply a fraction by a power of ten. -/
def scaleTen (num den : Nat) (k : Int) : Nat × Nat :=
  if k ≥ 0 then (num * Nat.pow 10 k.toNat, den) else (num, den * Nat.pow 10 (-k).toNat)

/-- The exponent of the leading digit of a positive fraction. -/
def leadingExponent (num den : Nat) : Int :=
  if num ≥ den then ((Nat.toDigits 10 (num / den)).length : Int) - 1
  else
    let guess := ((Nat.toDigits 10 (den / num)).length : Int)
    let (n, d) := scaleTen num den (guess - 1)
    if n ≥ d then -(guess - 1) else -guess

/-- Which of two decimals is taken that are equally near. -/
inductive Tie where
  /-- The larger one. -/
  | up
  /-- The one with an even last digit. -/
  | toEven
  deriving DecidableEq, Repr

/-- Of two neighbours, the one below being `below`, the one above is taken. -/
def Tie.takesAbove (tie : Tie) (below : Nat) : Bool :=
  match tie with
  | up => true
  | toEven => below % 2 == 1

/-- The multiple of `10 ^ k` nearest to the value, if it rounds to the value. All are multiples of
a quarter of the distance between neighbouring doubles: the value, and the ends of what rounds to
it, which count only if `closed`. -/
def hit? (tie : Tie) (value low high den : Nat) (closed : Bool) (k : Int) : Option Decimal :=
  let (v, d) := scaleTen value den (-k)
  let (l, _) := scaleTen low den (-k)
  let (h, _) := scaleTen high den (-k)
  let below := v / d
  let fits (n : Nat) : Bool :=
    if closed then l ≤ n * d && n * d ≤ h else l < n * d && n * d < h
  let above := below + 1
  let toAbove := above * d - v
  let toBelow := v - below * d
  let takeAbove := toAbove < toBelow || (toAbove == toBelow && tie.takesAbove below)
  if fits below && !(takeAbove && fits above) then some ⟨below, k⟩
  else if fits above then some ⟨above, k⟩
  else none

/-- The shortest decimal that reads back as the given double. -/
def shortest (tie : Tie) (b : Binary) : Decimal :=
  if b.significand == 0 then ⟨0, 0⟩
  else
    let e := b.exponent - 2
    let (unit, den) := if e ≥ 0 then (Nat.pow 2 e.toNat, 1) else (1, Nat.pow 2 (-e).toNat)
    let value := 4 * b.significand * unit
    let low := (4 * b.significand - (if b.atPower then 1 else 2)) * unit
    let high := (4 * b.significand + 2) * unit
    let lead := leadingExponent value den
    let closed := b.significand % 2 == 0
    let tries := (List.range 17).filterMap fun (n : Nat) =>
      hit? tie value low high den closed (lead - n)
    match tries.find? (·.digits != 0) with
    | some d => d
    | none => ⟨0, 0⟩

/-- Move the zeros at the end of the digits into the exponent. -/
def trimZeros : Nat → Decimal → Decimal
  | 0, d => d
  | fuel + 1, d =>
    if d.digits != 0 && d.digits % 10 == 0 then trimZeros fuel ⟨d.digits / 10, d.exponent + 1⟩
    else d

def ofFloat (tie : Tie) (x : Float) : Decimal :=
  trimZeros 17 (shortest tie (Binary.ofFloat x))

/-- The double nearest to `digits · 10 ^ exponent`. Beyond the range of doubles the exponent has
no further effect. -/
def toFloat (negative : Bool) (digits : Nat) (exponent : Int) : Float :=
  let length : Int := (Nat.toDigits 10 digits).length
  let x :=
    if digits == 0 || length + exponent < -400 then 0.0
    else if length + exponent > 400 then 1.0 / 0.0
    else if exponent ≥ 0 then Float.ofScientific digits false exponent.toNat
    else Float.ofScientific digits true (-exponent).toNat
  if negative then -x else x

end Decimal

end TreeSchema
