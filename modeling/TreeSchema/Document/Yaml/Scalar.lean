import TreeSchema.Decimal.Layout
import TreeSchema.Document.Tree
import TreeSchema.Text.Quoted

/-!
# Typed scalars

A scalar without quotes is read as nothing, a truth value or a number where it looks like one,
and as a text otherwise.
-/

namespace TreeSchema.Document.Yaml

inductive Scalar where
  | null
  | bool (value : Bool)
  | integer (value : Int)
  | float (value : Float)
  | text (value : String)

namespace Scalar

def null? (s : String) : Bool := ["~", "null", "Null", "NULL"].contains s

def bool? (s : String) : Option Bool :=
  if ["true", "True", "TRUE"].contains s then some true
  else if ["false", "False", "FALSE"].contains s then some false
  else none

/-- Digits of a base, at least one. -/
def natural? (base : Nat) (cs : List Char) : Option Nat :=
  let digit? (c : Char) : Option Nat :=
    let n := c.toNat
    let value :=
      if c.isDigit then n - 48
      else if 'a' ≤ c && c ≤ 'z' then n - 87
      else if 'A' ≤ c && c ≤ 'Z' then n - 55
      else base
    if value < base then some value else none
  if cs.isEmpty then none
  else cs.foldlM (fun acc c => (digit? c).map (base * acc + ·)) 0

/-- A magnitude with the mark of its base, or in tens. -/
def magnitude? : List Char → Option Nat
  | '0' :: 'x' :: cs => natural? 16 cs
  | '0' :: 'o' :: cs => natural? 8 cs
  | '0' :: 'b' :: cs => natural? 2 cs
  | cs => natural? 10 cs

/-- Digits after a leading zero, which make no number. -/
def isPadded (cs : List Char) : Bool :=
  let cs := match cs with
    | '-' :: rest => rest
    | '+' :: rest => rest
    | _ => cs
  match cs with
  | '0' :: rest => !rest.isEmpty && rest.all Char.isDigit
  | _ => false

/-- An integer of at most 128 bits. -/
def integer? (cs : List Char) : Option Int :=
  if isPadded cs then none
  else
    match cs with
    | '-' :: rest =>
      (magnitude? rest).bind fun n => if n ≤ Nat.pow 2 127 then some (-(n : Int)) else none
    | '+' :: rest => (magnitude? rest).bind bounded
    | _ => (magnitude? cs).bind bounded
where
  bounded (n : Nat) : Option Int := if n < Nat.pow 2 128 then some n else none

/-- An exponent with an optional sign, after its letter. -/
def exponent? : List Char → Option Int
  | '-' :: cs => (natural? 10 cs).map fun n => -(n : Int)
  | '+' :: cs => (natural? 10 cs).map fun n => (n : Int)
  | cs => (natural? 10 cs).map fun n => (n : Int)

/-- Digits with at most one point among or beside them, and an optional exponent. -/
def unsignedFloat? (negative : Bool) (cs : List Char) : Option Float := do
  let whole := cs.takeWhile Char.isDigit
  let rest := cs.dropWhile Char.isDigit
  let (fraction, rest) := match rest with
    | '.' :: more => (more.takeWhile Char.isDigit, more.dropWhile Char.isDigit)
    | _ => ([], rest)
  let digits ← natural? 10 (whole ++ fraction)
  let exponent ← match rest with
    | [] => some 0
    | c :: more => if c == 'e' || c == 'E' then exponent? more else none
  let x := Decimal.toFloat negative digits (exponent - fraction.length)
  if x.isInf then none else some x

def float? (cs : List Char) : Option Float :=
  let s := String.ofList cs
  if [".inf", ".Inf", ".INF", "+.inf", "+.Inf", "+.INF"].contains s then some (1.0 / 0.0)
  else if ["-.inf", "-.Inf", "-.INF"].contains s then some (-1.0 / 0.0)
  else if [".nan", ".NaN", ".NAN"].contains s then some (0.0 / 0.0)
  else match cs with
    | '-' :: rest => unsignedFloat? true rest
    | '+' :: rest => unsignedFloat? false rest
    | _ => unsignedFloat? false cs

/-- What a scalar without quotes and tag stands for. -/
def ofPlain (s : String) : Scalar :=
  if s.isEmpty || null? s then .null
  else
    match bool? s with
    | some b => .bool b
    | none =>
      match integer? s.toList with
      | some n => .integer n
      | none =>
        if isPadded s.toList then .text s
        else
          match float? s.toList with
          | some x => .float x
          | none => .text s

/-- A scalar as a value below the outermost mapping. -/
def tree : Scalar → Tree
  | null => .null
  | bool b => .bool b
  | integer n => if isWide n then .refused (.wide n) (.integer n) else .integer n
  | float _ => .fraction
  | text s => .text s

/-- A scalar in words, as the thing found where a mapping was wanted. -/
def describe : Scalar → String
  | null => "unit value"
  | bool b => s!"boolean `{b}`"
  | integer n => describeInteger n
  | float x => "floating point `" ++ Decimal.render .full x ++ "`"
  | text s => "string " ++ Text.quoted s

end Scalar

end TreeSchema.Document.Yaml
