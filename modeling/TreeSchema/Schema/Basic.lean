import TreeSchema.ChildRef
import TreeSchema.Gate
import TreeSchema.TypeExpr

/-!
# Schemas

A schema is an ordered list of entries with different names: other names for types, products of
fields, and sums of variants. The order of the entries is the order of everything that is written
for them.
-/

namespace TreeSchema

/-- Named types in order. -/
abbrev Fields := List (String × TypeExpr)

inductive Variant where
  | unit
  /-- A payload without a name. -/
  | wrap (payload : TypeExpr)
  /-- Named fields, with an identity of their own if `hasId`. -/
  | struct (fields : Fields) (hasId : Bool)
  deriving DecidableEq, Repr

namespace Variant

/-- The payload is a bare position. -/
def isLeaf : Variant → Bool
  | wrap t => t.isPosition
  | _ => false

def fields? : Variant → Option Fields
  | struct fields _ => some fields
  | _ => none

/-- The types that a variant mentions. -/
def types : Variant → List TypeExpr
  | unit => []
  | wrap t => [t]
  | struct fields _ => fields.map Prod.snd

end Variant

inductive Shape where
  | aliasOf (target : TypeExpr)
  | product (fields : Fields)
  | sum (variants : List (String × Variant))
  deriving DecidableEq, Repr

/-- The types that a shape mentions, in order. -/
def Shape.types : Shape → List TypeExpr
  | aliasOf target => [target]
  | product fields => fields.map Prod.snd
  | sum variants => variants.flatMap fun v => v.2.types

structure Entry where
  /-- The name under which other entries refer to it. -/
  name : String
  /-- The name of the type that is written for it. -/
  displayName : String
  shape : Shape
  hasIdentity : Bool := true
  /-- A position is asked for, whatever the shape. -/
  forcePosition : Bool := false
  gate : Option Gate := none
  children : Option ChildrenSpec := none
  extraDerives : List String := []
  deriving DecidableEq, Repr

namespace Entry

def isAlias (e : Entry) : Bool :=
  match e.shape with
  | .aliasOf _ => true
  | _ => false

def isSum (e : Entry) : Bool :=
  match e.shape with
  | .sum _ => true
  | _ => false

/-- The kinds that have an identity and a case in the view. -/
def participates (e : Entry) : Bool := !e.isAlias && e.hasIdentity

/-- What every written type derives. -/
def baseDerives : List String := ["Debug", "PartialEq", "Eq", "Clone"]

/-- The base traits, then the others in order, each once. -/
def derives (e : Entry) : List String :=
  e.extraDerives.foldl (fun out t => if out.contains t then out else out ++ [t]) baseDerives

/-- An entry is there when its gate lets it through. -/
def enabled (v : Gate.Valuation) (e : Entry) : Bool := Gate.allows v e.gate

end Entry

structure Schema where
  entries : List Entry
  nodup : (entries.map Entry.name).Nodup

namespace Schema

def get? (s : Schema) (name : String) : Option Entry := s.entries.find? (·.name == name)

/-- What a type name refers to: the entry of that name, or else all that are written under it. -/
def resolve (s : Schema) (name : String) : List Entry :=
  match s.get? name with
  | some e => [e]
  | none => s.entries.filter (·.displayName == name)

/-- The name that is written for a type name. -/
def displayNameOf (s : Schema) (name : String) : String :=
  match s.get? name with
  | some e => e.displayName
  | none => name

def renderType (s : Schema) (t : TypeExpr) : String := t.render s.displayNameOf

/-- The type that a name stands for, if it refers to one entry and that is an alias. -/
def aliasTarget? (s : Schema) (t : TypeExpr) : Option TypeExpr :=
  match t with
  | .named name =>
    match s.resolve name with
    | [e] =>
      match e.shape with
      | .aliasOf target => some target
      | _ => none
    | _ => none
  | _ => none

/-- Replace an alias by its target, at most `n` times. -/
def followAlias (s : Schema) : Nat → TypeExpr → TypeExpr
  | 0, t => t
  | n + 1, t =>
    match s.aliasTarget? t with
    | some target => s.followAlias n target
    | none => t

/-- Follow aliases to a type that is none. There are as many steps as entries, which is enough
unless the aliases go round in a circle. -/
def resolveAlias (s : Schema) (t : TypeExpr) : TypeExpr := s.followAlias s.entries.length t

def participating (s : Schema) : List Entry := s.entries.filter Entry.participates

/-- The kinds that a payload refers to, through one box, any aliases and another box. -/
def wrappedKinds (s : Schema) (t : TypeExpr) : List Entry :=
  match (s.resolveAlias t.unboxed).unboxed with
  | .named name => (s.resolve name).filter fun e => !e.isAlias
  | _ => []

end Schema

end TreeSchema
