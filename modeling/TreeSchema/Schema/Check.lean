import TreeSchema.Checked
import TreeSchema.Error
import TreeSchema.Name
import TreeSchema.Schema.Basic

/-!
# Checking a schema

Every name that a schema mentions must be declared wherever it is used, names must not be written
twice, and children must fit the shapes of their entries.
-/

namespace TreeSchema

open Checked (forEach require)

namespace Entry

/-- Fields that clash with a stored identity, and a position asked for in vain. -/
def checkShape (e : Entry) : Except Error Unit :=
  match e.shape with
  | .aliasOf _ => require e.children.isNone (.broken e.name .aliasChildren)
  | .product fields => do
    require (!(e.hasIdentity && (fields.lookup "id").isSome)) (.broken e.name .idField)
    require (!e.forcePosition || fields.any (·.2.isPosition)) (.broken e.name .forcedPosition)
  | .sum variants => do
    require (!variants.isEmpty) (.broken e.name .someVariant)
    forEach (fun v => match v.2 with
      | .struct fields true =>
        require (fields.lookup "id").isNone (.broken e.name (.variantIdField v.1))
      | _ => .ok ()) variants

/-- A field marked as optional must be an option. -/
def checkMark (e : Entry) (child : ChildRef) (t : TypeExpr) : Except Error Unit :=
  match child.mark, t with
  | .optional, .wrap .optional _ => .ok ()
  | .optional, _ => .error (.broken e.name (.optionalField child.field))
  | _, _ => .ok ()

/-- A reference to a field of a product. -/
def checkProductChild (e : Entry) (fields : Fields) (child : ChildRef) : Except Error Unit := do
  require (!child.qualified) (.broken e.name (.qualifiedOnSum child.field))
  match fields.lookup child.field with
  | none => .error (.broken e.name (.knownField child.field))
  | some t => e.checkMark child t

/-- The types that the variants of a sum give to a field. -/
def variantTypes (variants : List (String × Variant)) (field : String) : List TypeExpr :=
  variants.filterMap fun v => v.2.fields?.bind (·.lookup field)

/-- A reference to a field of some variants of a sum. -/
def checkSumChild (e : Entry) (variants : List (String × Variant)) (child : ChildRef) :
    Except Error Unit := do
  require child.qualified (.broken e.name (.qualified child.field))
  forEach (e.checkMark child) (variantTypes variants child.field)
  require (!(variantTypes variants child.field).isEmpty)
    (.broken e.name (.knownVariantField child.field))

def checkChildren (e : Entry) (spec : ChildrenSpec) : Except Error Unit := do
  require e.participates (.broken e.name .childrenInView)
  match e.shape, spec with
  | .sum variants, .variants =>
    forEach (fun v => require v.2.fields?.isNone (.broken e.name (.selfPayload v.1))) variants
  | _, .variants => .error (.broken e.name .selfOnSum)
  | .product fields, .refs refs => forEach (e.checkProductChild fields) refs
  | .sum variants, .refs refs => forEach (e.checkSumChild variants) refs
  | .aliasOf _, .refs _ => .error (.broken e.name .aliasChildren)

end Entry

namespace Schema

/-- A name needs no declaration if it is built in, a path, imported, or an entry's. -/
def isKnown (s : Schema) (imported : List String) (name : String) : Bool :=
  Name.isPrimitive name || (Name.segments name.toList).length > 1 || imported.contains name ||
    !(s.resolve name).isEmpty

/-- The gates of some entries, if all of them have one. -/
def allGates (es : List Entry) : Option (List Gate) := es.mapM Entry.gate

/-- Some gate of the list and its complement. -/
def coversAll (gates : List Gate) : Bool := gates.any fun a => gates.any a.isComplement

/-- An entry may mention gated entries only under one of their gates, unless they are there under
both states of a feature. -/
def checkGate (s : Schema) (e : Entry) (name : String) : Except Error Unit :=
  match allGates (s.resolve name) with
  | none => .ok ()
  | some [] => .ok ()
  | some (first :: rest) =>
    require (e.gate.any (first :: rest).contains || coversAll (first :: rest))
      (.badUse e.name name (.gated first))

/-- Names that an entry mentions are known and there whenever the entry is. -/
def checkReferences (s : Schema) (imported : List String) (e : Entry) : Except Error Unit :=
  forEach (fun name => do
    require (s.isKnown imported name) (.undeclared e.name .type name)
    s.checkGate e name) (e.shape.types.flatMap TypeExpr.names)

/-- The entries that are written under a name. -/
def writtenAs (s : Schema) (name : String) : List Entry :=
  s.entries.filter (·.displayName == name)

/-- One entry, or two under opposite gates. -/
def mayShare : List Entry → Bool
  | [_] => true
  | [a, b] =>
    match a.gate, b.gate with
    | some x, some y => x.isComplement y
    | _, _ => false
  | _ => false

/-- No two entries are written under one name at the same time. -/
def checkNames (s : Schema) : Except Error Unit :=
  forEach (fun name =>
    let es := s.writtenAs name
    require (mayShare es) (.broken ((es.getLast?.map Entry.name).getD "") (.distinctName name)))
    (s.entries.map Entry.displayName).eraseDups

/-- What the view and the identities need: names with their roles. -/
def requiredNames : List (Role × String) :=
  [(.identityType, Fixed.identityType), (.positionType, TypeExpr.positionWord),
    (.trait, Fixed.identityTrait)]

def checkRequired (s : Schema) (imported : List String) : Except Error Unit :=
  match s.participating with
  | [] => .ok ()
  | first :: _ =>
    forEach (fun r => require (s.isKnown imported r.2) (.undeclared first.name r.1 r.2))
      requiredNames

def checkEntry (s : Schema) (imported : List String) (e : Entry) : Except Error Unit := do
  s.checkReferences imported e
  e.checkShape
  match e.children with
  | none => .ok ()
  | some spec => e.checkChildren spec

/-- Check a schema against itself and the imported names. -/
def check (s : Schema) (imported : List String) : Except Error Unit := do
  s.checkNames
  forEach (s.checkEntry imported) s.entries
  s.checkRequired imported

end Schema

end TreeSchema
