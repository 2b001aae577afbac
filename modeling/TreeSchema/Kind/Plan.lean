import TreeSchema.Checked
import TreeSchema.Error
import TreeSchema.Positions

/-!
# Accessors of a kind

How the identity and the position of a kind are found: in a field, or by looking at the variants
of a sum. Everything that can go wrong is settled here, before any text is written.
-/

namespace TreeSchema

/-- The form of a variant in a pattern. -/
inductive PatternForm where
  | unit
  | tuple
  | struct
  deriving DecidableEq, Repr

def Variant.form : Variant → PatternForm
  | unit => .unit
  | wrap _ => .tuple
  | struct _ _ => .struct

/-- What is done for one variant. -/
structure Arm (α : Type) where
  variant : String
  form : PatternForm
  action : α
  deriving DecidableEq, Repr

inductive IdentityAction where
  /-- There is no identity. -/
  | none
  /-- The variant stores one. -/
  | stored
  /-- The wrapped node has one. -/
  | delegate
  deriving DecidableEq, Repr

inductive IdentityPlan where
  | stored
  | dispatch (arms : List (Arm IdentityAction))
  deriving DecidableEq, Repr

inductive PositionAction where
  /-- The payload is the position. -/
  | payload
  | field (name : String)
  /-- The wrapped node has one. -/
  | forward
  /-- There is none. -/
  | none
  deriving DecidableEq, Repr

inductive PositionPlan where
  | field (name : String)
  | dispatch (arms : List (Arm PositionAction))
  deriving DecidableEq, Repr

/-- An entry with its accessors. -/
structure KindPlan where
  entry : Entry
  identity : Option IdentityPlan
  position : Option PositionPlan
  deriving DecidableEq, Repr

open Checked (collect)

namespace IdentityPlan

/-- A payload lends its identity if it refers to kinds that all have one. -/
def checkDelegate (s : Schema) (e : Entry) (variant : String) (t : TypeExpr) :
    Except Error Unit :=
  match s.wrappedKinds t with
  | [] =>
    match t.unboxed with
    | .named name =>
      if (s.resolve name).isEmpty then .error (.undeclared e.name .delegate name)
      else .error (.badUse e.name (s.renderType t) (.wrapsNoKind variant))
    | _ => .error (.badUse e.name (s.renderType t) (.wrapsNoKind variant))
  | targets =>
    match targets.find? fun target => !target.participates with
    | some target => .error (.badUse e.name target.name (.wrapsNoIdentity variant))
    | none => .ok ()

def action (s : Schema) (e : Entry) (name : String) : Variant → Except Error IdentityAction
  | .unit => .ok .none
  | .struct _ hasId => .ok (if hasId then .stored else .none)
  | .wrap t =>
    if t.isPosition then .ok .none
    else
      match checkDelegate s e name t with
      | .error f => .error f
      | .ok () => .ok .delegate

def arm (s : Schema) (e : Entry) (v : String × Variant) : Except Error (Arm IdentityAction) :=
  match action s e v.1 v.2 with
  | .error f => .error f
  | .ok a => .ok ⟨v.1, v.2.form, a⟩

def ofEntry (s : Schema) (e : Entry) : Except Error IdentityPlan :=
  match e.shape with
  | .sum variants =>
    match collect (arm s e) variants with
    | .error f => .error f
    | .ok arms => .ok (.dispatch arms)
  | _ => .ok .stored

end IdentityPlan

namespace PositionPlan

/-- The field `span` if it is a position, or else the first that is. -/
def fieldOf? (fields : Fields) : Option String :=
  let candidates := (fields.filter (·.2.isPosition)).map Prod.fst
  (candidates.find? (· == "span")).or candidates.head?

def action (s : Schema) (p : Positions) : Variant → PositionAction
  | .unit => .none
  | .wrap t =>
    if t.isPosition then .payload
    else if p.wrapsPositioned s t then .forward
    else .none
  | .struct fields _ =>
    match fieldOf? fields with
    | some f => .field f
    | none => .none

/-- In strict mode, every variant must have a position. -/
def arm (s : Schema) (p : Positions) (strict : Bool) (e : Entry) (v : String × Variant) :
    Except Error (Arm PositionAction) :=
  if strict && action s p v.2 == .none then .error (.broken e.name (.derivablePosition v.1))
  else .ok ⟨v.1, v.2.form, action s p v.2⟩

def ofEntry (s : Schema) (p : Positions) (strict : Bool) (e : Entry) :
    Except Error PositionPlan :=
  match e.shape with
  | .aliasOf _ => .error (.broken e.name .aliasPosition)
  | .product fields =>
    match fieldOf? fields with
    | some f => .ok (.field f)
    | none => .error (.broken e.name .productPosition)
  | .sum variants =>
    match collect (arm s p strict e) variants with
    | .error f => .error f
    | .ok arms => .ok (.dispatch arms)

end PositionPlan

namespace KindPlan

def identityOf (s : Schema) (e : Entry) : Except Error (Option IdentityPlan) :=
  if e.participates then (IdentityPlan.ofEntry s e).map some else .ok none

def positionOf (s : Schema) (p : Positions) (strict : Bool) (e : Entry) :
    Except Error (Option PositionPlan) :=
  if p.contains e.name then (PositionPlan.ofEntry s p strict e).map some else .ok none

/-- The accessors of an entry. -/
def ofEntry (s : Schema) (p : Positions) (strict : Bool) (e : Entry) : Except Error KindPlan :=
  match identityOf s e with
  | .error f => .error f
  | .ok identity =>
    match positionOf s p strict e with
    | .error f => .error f
    | .ok position => .ok ⟨e, identity, position⟩

end KindPlan

end TreeSchema
