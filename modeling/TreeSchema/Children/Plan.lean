import TreeSchema.Checked
import TreeSchema.Error
import TreeSchema.Kind.Plan

/-!
# Children

Which fields of a kind are walked to find its child nodes, and through which wrappers. A plan has
no names left to look up.
-/

namespace TreeSchema

open Checked (collect)

/-- The wrappers between a field and the nodes in it, outermost first. -/
abbrev Access := List Wrapper

namespace Access

/-- The name at the core of a type must refer to kinds of the view. -/
def checkNode (s : Schema) (e : Entry) (field name : String) : Except Error Access :=
  match s.resolve name with
  | [] => .error (.badUse e.name field (.childNoKind name))
  | targets =>
    match targets.find? fun target => !target.participates with
    | some target => .error (.badUse e.name field (.childOutside target.name))
    | none => .ok []

/-- Go through the wrappers of a type and of the aliases in it, `n` of them at most. -/
def ofType (s : Schema) (e : Entry) (field : String) : Nat → TypeExpr → Except Error Access
  | 0, _ => .error (.endless e.name field)
  | n + 1, t =>
    match s.resolveAlias t with
    | .wrap w inner => (ofType s e field n inner).map (w :: ·)
    | .position => .error (.badUse e.name field .childPosition)
    | .named name => checkNode s e field name

/-- The wrappers of all aliases together. -/
def aliasDepth (s : Schema) : Nat :=
  (s.entries.map fun e => match e.shape with
    | .aliasOf target => target.depth
    | _ => 0).foldr (· + ·) 0

/-- The access path of a field's type. No more wrappers can be met than the type and the aliases
have, unless an alias contains itself. -/
def find (s : Schema) (e : Entry) (field : String) (t : TypeExpr) : Except Error Access :=
  ofType s e field (t.depth + aliasDepth s + 1) t

end Access

/-- A field with the way to its nodes. -/
structure Walk where
  field : String
  /-- The variable that the field of a variant is bound to. -/
  binding : Option String
  access : Access
  deriving DecidableEq, Repr

inductive ArmBody where
  | empty
  /-- The payload of a variant. -/
  | payload (access : Access)
  | fields (walks : List Walk)
  deriving DecidableEq, Repr

structure VariantWalk where
  variant : String
  form : PatternForm
  body : ArmBody
  deriving DecidableEq, Repr

inductive ChildrenPlan where
  | none
  | fields (walks : List Walk)
  | variants (walks : List VariantWalk)
  deriving DecidableEq, Repr

namespace ChildrenPlan

def isNone : ChildrenPlan → Bool
  | none => true
  | _ => false

/-- The variables that the accessor itself uses. -/
def ownVariables : List String := ["children", "node", "self"]

/-- The variable for a field, kept apart from the accessor's own. -/
def bindingOf (field : String) : String :=
  if ownVariables.contains field then field ++ "_" else field

/-- The references that are walked. -/
def traversed (refs : List ChildRef) : List ChildRef := refs.filter (·.mark != .excluded)

/-- A field of a product. -/
def productWalk (s : Schema) (e : Entry) (fields : Fields) (child : ChildRef) :
    Except Error Walk :=
  match fields.lookup child.field with
  | .none => .error (.undeclared e.name .field child.field)
  | some t => (Access.find s e child.field t).map fun a => ⟨child.field, .none, a⟩

/-- A field of a variant. -/
def variantWalk (s : Schema) (e : Entry) (f : String × TypeExpr) : Except Error Walk :=
  (Access.find s e f.1 f.2).map fun a => ⟨f.1, some (bindingOf f.1), a⟩

/-- The references that a variant has fields for, with the types of those. -/
def declared (refs : List ChildRef) (fields : Fields) : Fields :=
  (traversed refs).filterMap fun child =>
    (fields.lookup child.field).map fun t => (child.field, t)

def fieldsBody (walks : List Walk) : ArmBody :=
  if walks.isEmpty then .empty else .fields walks

/-- What a sum does for one variant when its children are the payloads. -/
def payloadBody (s : Schema) (e : Entry) (name : String) : Variant → Except Error ArmBody
  | .unit => .ok .empty
  | .wrap t =>
    if t.isPosition then .ok .empty else (Access.find s e name t).map .payload
  | .struct _ _ => .error (.broken e.name (.selfPayload name))

/-- What a sum does for one variant when its children are fields of the variants. -/
def refsBody (s : Schema) (e : Entry) (refs : List ChildRef) : Variant → Except Error ArmBody
  | .struct fs _ => (collect (variantWalk s e) (declared refs fs)).map fieldsBody
  | _ => .ok .empty

def variantArm (body : Variant → Except Error ArmBody) (v : String × Variant) :
    Except Error VariantWalk :=
  (body v.2).map fun b => ⟨v.1, v.2.form, b⟩

/-- The children that an entry declares. -/
def ofEntry (s : Schema) (e : Entry) : Except Error ChildrenPlan :=
  match e.children with
  | .none => .ok .none
  | some spec =>
    match e.shape, spec with
    | .sum vs, .variants =>
      (collect (fun v => variantArm (payloadBody s e v.1) v) vs).map .variants
    | .sum vs, .refs refs => (collect (variantArm (refsBody s e refs)) vs).map .variants
    | .product fs, .refs refs => (collect (productWalk s e fs) (traversed refs)).map .fields
    | _, .variants => .error (.broken e.name .selfOnSum)
    | .aliasOf _, .refs _ => .error (.broken e.name .aliasChildren)

end ChildrenPlan

end TreeSchema
