import TreeSchema.Decimal.Shortest

/-!
# Decimal texts

How a double is written: always with a decimal point, in full, or with an exponent where the
point would be far from the digits.
-/

namespace TreeSchema.Decimal

def zeros (n : Nat) : List Char := List.replicate n '0'

/-- The digits with the point after the `point`-th of them. -/
def positional (digits : List Char) (point : Int) : List Char :=
  if point ≤ 0 then "0.".toList ++ zeros (-point).toNat ++ digits
  else
    let n := point.toNat
    if digits.length ≤ n then digits ++ zeros (n - digits.length) ++ ".0".toList
    else digits.take n ++ '.' :: digits.drop n

/-- One digit before the point, and the exponent with its sign after the digits. -/
def exponential (digits : List Char) (point : Int) : List Char :=
  let mantissa := match digits with
    | [] => []
    | [d] => [d]
    | d :: ds => d :: '.' :: ds
  let sign := if point - 1 < 0 then '-' else '+'
  mantissa ++ 'e' :: sign :: Nat.toDigits 10 (point - 1).natAbs

/-- Where the positional form ends, and how ties go. -/
structure Layout where
  positionalAt : Int → Bool
  tie : Tie

/-- Never an exponent; a tie goes up. -/
def Layout.full : Layout := ⟨fun _ => true, .up⟩

/-- Positional from `0.00001` up to sixteen digits before the point; a tie goes to the even
digit. -/
def Layout.compact : Layout := ⟨fun point => -5 < point && point ≤ 16, .toEven⟩

def render (layout : Layout) (x : Float) : String :=
  if x.isNaN then "NaN"
  else
    let sign := if isNegative x then "-" else ""
    if x.isInf then sign ++ "inf"
    else
      let d := ofFloat layout.tie x
      if d.digits == 0 then sign ++ "0.0"
      else
        let digits := Nat.toDigits 10 d.digits
        let point := digits.length + d.exponent
        sign ++ String.ofList
          (if layout.positionalAt point then positional digits point else exponential digits point)

end TreeSchema.Decimal
