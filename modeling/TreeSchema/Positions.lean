import TreeSchema.Schema.Basic

/-!
# Which kinds have a position

A kind has a position if it is asked for, if a field or payload is one, or if it is a sum and a
variant wraps only kinds that have one. The last rule is applied until nothing changes.
-/

namespace TreeSchema

/-- The names of the entries that have a position. -/
structure Positions where
  names : List String
  deriving DecidableEq, Repr

namespace Positions

def contains (p : Positions) (name : String) : Bool := p.names.contains name

/-- Sums that only tell kinds apart; their position is that of the node around them. -/
def excludedNames : List String := ["StatementKind", "ExpressionKind"]

def isExcluded (e : Entry) : Bool :=
  excludedNames.contains e.name || excludedNames.contains e.displayName

/-- The payload refers to some kinds, and all of them have a position. -/
def wrapsPositioned (p : Positions) (s : Schema) (t : TypeExpr) : Bool :=
  !(s.wrappedKinds t).isEmpty && (s.wrappedKinds t).all fun e => p.contains e.name

/-- A variant has a position, given the kinds that have one. -/
def variantQualifies (p : Positions) (s : Schema) : Variant → Bool
  | .unit => false
  | .wrap t => t.isPosition || p.wrapsPositioned s t
  | .struct fields _ => fields.any (·.2.isPosition)

/-- An entry has a position, given the kinds that have one. -/
def qualifies (p : Positions) (s : Schema) (e : Entry) : Bool :=
  match e.shape with
  | .aliasOf _ => false
  | .product fields => e.forcePosition || fields.any (·.2.isPosition)
  | .sum variants =>
    e.forcePosition || (!isExcluded e && variants.any fun v => p.variantQualifies s v.2)

/-- Add an entry if it qualifies. -/
def visit (s : Schema) (p : Positions) (e : Entry) : Positions :=
  if !p.contains e.name && p.qualifies s e then ⟨p.names ++ [e.name]⟩ else p

/-- Visit all entries once. -/
def round (s : Schema) (p : Positions) : Positions := s.entries.foldl (visit s) p

/-- Repeat rounds until one changes nothing. -/
def settle (s : Schema) : Nat → Positions → Positions
  | 0, p => p
  | n + 1, p => if round s p = p then p else settle s n (round s p)

/-- Every round but the last adds an entry, so there is one more round than entries at most. -/
def analyze (s : Schema) : Positions := settle s (s.entries.length + 1) ⟨[]⟩

end Positions

end TreeSchema
