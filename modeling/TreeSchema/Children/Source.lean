import TreeSchema.Children.Plan
import TreeSchema.Kind.Source

/-!
# Source text that collects children

Access paths are followed by loops and tests that end in adding a node to the children. A value on
the way is either a place or held by a variable as a reference.
-/

namespace TreeSchema

/-- An expression that denotes a place. -/
inductive Place where
  /-- A field of the node at hand. -/
  | field (name : String)
  /-- A variable. -/
  | var (name : String)
  | deref (place : Place)
  deriving DecidableEq, Repr

/-- What a path is followed from: a place, or a variable that holds a reference. -/
inductive Operand where
  | place (place : Place)
  | reference (var : String)
  deriving DecidableEq, Repr

namespace Place

def text : Place → String
  | field name => "node." ++ name
  | var name => name
  | deref p => "*" ++ p.text

def isDeref : Place → Bool
  | deref _ => true
  | _ => false

end Place

namespace Operand

/-- As a reference. -/
def asReference : Operand → String
  | place p => "&" ++ p.text
  | reference v => v

/-- As what a method is called on; a dereference needs parentheses there. -/
def asReceiver : Operand → String
  | place p => if p.isDeref then "(" ++ p.text ++ ")" else p.text
  | reference v => v

/-- The content of a box: behind the place, or behind what the reference refers to. -/
def content : Operand → Operand
  | place p => .place (.deref p)
  | reference v => .place (.deref (.deref (.var v)))

end Operand

namespace Access

/-- The variable of the loop or test inside `depth` others. -/
def itemName (depth : Nat) : String := "child_" ++ toString depth

/-- Follow an access path from an operand. -/
def code : Access → Operand → Nat → Code
  | [], operand, _ =>
    [.line ("children.push(" ++ Fixed.viewName ++ "::from(" ++ operand.asReference ++ "));")]
  | .box :: rest, operand, depth => code rest operand.content depth
  | .sequence :: rest, operand, depth =>
    .openBlock ("for " ++ itemName depth ++ " in " ++ operand.asReceiver ++ ".iter() \x7b") ::
      code rest (.reference (itemName depth)) (depth + 1) ++ [.closeBlock "\x7d"]
  | .separated :: rest, operand, depth =>
    .openBlock ("for " ++ itemName depth ++ " in " ++ operand.asReceiver ++ ".inner.iter() \x7b") ::
      code rest (.reference (itemName depth)) (depth + 1) ++ [.closeBlock "\x7d"]
  | .optional :: rest, operand, depth =>
    .openBlock ("if let Some(" ++ itemName depth ++ ") = " ++ operand.asReference ++ " \x7b") ::
      code rest (.reference (itemName depth)) (depth + 1) ++ [.closeBlock "\x7d"]

end Access

/-- The variable of a field of a variant. -/
def Walk.var (w : Walk) : String := w.binding.getD w.field

/-- What an arm of a match takes out of a variant. -/
inductive ArmPattern where
  /-- Nothing. -/
  | ignored (form : PatternForm)
  /-- The payload, as the variable `inner`. -/
  | payload
  /-- Fields with their variables. -/
  | fields (bindings : List (String × String))
  deriving DecidableEq, Repr

namespace ArmPattern

/-- A field with its variable, which is left out if it has the field's name. -/
def bindingText (b : String × String) : String :=
  if b.2 = b.1 then b.1 else b.1 ++ ": " ++ b.2

/-- The pattern for a variant at a path. -/
def text (path : String) : ArmPattern → String
  | ignored .unit => path
  | ignored .tuple => path ++ "(_)"
  | ignored .struct => path ++ " \x7b .. \x7d"
  | payload => path ++ "(inner)"
  | fields bindings =>
    path ++ " \x7b " ++ ", ".intercalate (bindings.map bindingText) ++ ", .. \x7d"

end ArmPattern

namespace VariantWalk

def pattern (v : VariantWalk) : ArmPattern :=
  match v.body with
  | .empty => .ignored v.form
  | .payload _ => .payload
  | .fields walks => .fields (walks.map fun w => (w.field, w.var))

def patternText (type : String) (v : VariantWalk) : String :=
  v.pattern.text (type ++ "::" ++ v.variant)

/-- The arm for a variant; one that takes nothing has an empty body on its line. -/
def code (type : String) (v : VariantWalk) : Code :=
  match v.body with
  | .empty => [.line (v.patternText type ++ " => \x7b\x7d")]
  | .payload access =>
    .openBlock (v.patternText type ++ " => \x7b") :: access.code (.reference "inner") 0 ++
      [.closeBlock "\x7d"]
  | .fields walks =>
    .openBlock (v.patternText type ++ " => \x7b") ::
      (walks.flatMap fun w => w.access.code (.reference w.var) 0) ++ [.closeBlock "\x7d"]

end VariantWalk

/-- The statements that carry out a plan, for a kind of the given type. -/
def ChildrenPlan.code (type : String) : ChildrenPlan → Code
  | none => []
  | fields walks => walks.flatMap fun w => w.access.code (.place (.field w.field)) 0
  | variants walks =>
    .openBlock "match node \x7b" :: walks.flatMap (VariantWalk.code type) ++ [.closeBlock "\x7d"]

end TreeSchema
