import TreeSchema.Text.Blank

/-!
# Feature gates

An entry may be guarded by a feature or by its absence. A gate is true or false once it is known
which features are on.
-/

namespace TreeSchema

structure Gate where
  feature : String
  /-- True for a gate that asks for the absence of its feature. -/
  negated : Bool
  deriving DecidableEq, Repr

namespace Gate

/-- The features that are on. -/
abbrev Valuation := String → Bool

/-- Whether a gate lets its entry through. -/
def holds (v : Valuation) (g : Gate) : Bool := v g.feature != g.negated

/-- An entry without a gate is always there. -/
def allows (v : Valuation) (g : Option Gate) : Bool := g.all (holds v)

/-- A feature is a text without quotes and blanks, and not empty. -/
def isFeature (cs : List Char) : Bool :=
  !cs.isEmpty && cs.all fun c => c != '"' && !Text.isBlank c

/-- A feature, with an exclamation mark before it for its absence. -/
def parse? (src : String) : Option Gate :=
  let (negated, feature) :=
    match Text.trimChars src.toList with
    | '!' :: rest => (true, Text.trimChars rest)
    | text => (false, text)
  if isFeature feature then some ⟨String.ofList feature, negated⟩ else none

/-- The attribute that makes the following item conditional. -/
def cfgAttribute (g : Gate) : String :=
  if g.negated then "#[cfg(not(feature = \"" ++ g.feature ++ "\"))]"
  else "#[cfg(feature = \"" ++ g.feature ++ "\")]"

/-- Two gates on one feature that ask for opposite things. -/
def isComplement (g h : Gate) : Bool := g.feature == h.feature && g.negated != h.negated

end Gate

end TreeSchema
