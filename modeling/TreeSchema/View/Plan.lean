import TreeSchema.Children.Plan
import TreeSchema.Name

/-!
# The view

A union over all kinds that have an identity. Its plan has one case for each of them, in the order
of the schema.
-/

namespace TreeSchema

open Checked (collect forEach require)

/-- A kind's case in the view. -/
structure ViewCase where
  entry : Entry
  /-- The name in its accessors. -/
  accessor : String
  positioned : Bool
  children : ChildrenPlan
  deriving DecidableEq, Repr

structure ViewPlan where
  cases : List ViewCase
  deriving DecidableEq, Repr

namespace ViewCase

def ofEntry (s : Schema) (p : Positions) (e : Entry) : Except Error ViewCase :=
  (ChildrenPlan.ofEntry s e).map fun children =>
    ⟨e, Name.snakeCase e.displayName, p.contains e.name, children⟩

def asMethod (c : ViewCase) : String := "as_" ++ c.accessor

def isMethod (c : ViewCase) : String := "is_" ++ c.accessor

end ViewCase

namespace ViewPlan

/-- The methods of the view itself that an accessor could hide. -/
def ownMethods : List String := ["as_ptr"]

/-- An accessor is no method of the view, and kinds with one accessor have one name. -/
def checkAccessors : List ViewCase → List ViewCase → Except Error Unit
  | _, [] => .ok ()
  | seen, c :: rest =>
    if ownMethods.contains c.asMethod then .error (.broken c.entry.name (.ownMethod c.asMethod))
    else
      match seen.find? fun d => d.accessor == c.accessor with
      | some d =>
        if d.entry.displayName = c.entry.displayName then checkAccessors (seen ++ [c]) rest
        else
          .error (.broken c.entry.name (.distinctAccessor c.accessor d.entry.displayName))
      | none => checkAccessors (seen ++ [c]) rest

def isReserved (name : String) : Bool := name == Fixed.unionName || name == Fixed.viewName

/-- No entry is written under a name of the view itself. -/
def checkReserved (s : Schema) : Except Error Unit :=
  forEach (fun e => require (!isReserved e.displayName)
    (.broken e.name (.reservedName e.displayName))) s.entries

def ofSchema (s : Schema) (p : Positions) : Except Error ViewPlan := do
  checkReserved s
  let cases ← collect (ViewCase.ofEntry s p) s.participating
  require (!cases.isEmpty) (.broken Fixed.unionName .someKind)
  checkAccessors [] cases
  return ⟨cases⟩

def hasChildren (v : ViewPlan) : Bool := v.cases.any fun c => !c.children.isNone

end ViewPlan

end TreeSchema
