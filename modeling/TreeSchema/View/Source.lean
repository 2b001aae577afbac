import TreeSchema.Children.Source
import TreeSchema.View.Plan

/-!
# Source text of the view

The union, the view and its methods, and a conversion for each kind. Everything that belongs to a
kind stands under the gate of its entry.
-/

namespace TreeSchema

namespace ViewCase

def type (c : ViewCase) : String := c.entry.displayName

/-- The kind's case of the union. -/
def path (c : ViewCase) : String := Fixed.unionName ++ "::" ++ c.type

def unionCase (c : ViewCase) : Code :=
  [.gate c.entry.gate, .line (c.type ++ "(&'a " ++ c.type ++ "),")]

/-- The method that gives the node if it is of this kind, and the one that tells whether it is. -/
def narrowing (c : ViewCase) : Code :=
  [.gate c.entry.gate,
    .openBlock ("pub fn " ++ c.asMethod ++ "(&self) -> Option<&'a " ++ c.type ++ "> \x7b"),
    .openBlock ("if let " ++ c.path ++ "(node) = self.kind \x7b"), .line "Some(node)",
    .reopenBlock "\x7d else \x7b", .line "None", .closeBlock "\x7d", .closeBlock "\x7d", .blank,
    .gate c.entry.gate, .openBlock ("pub fn " ++ c.isMethod ++ "(&self) -> bool \x7b"),
    .line ("matches!(self.kind, " ++ c.path ++ "(_))"), .closeBlock "\x7d", .blank]

def nameArm (c : ViewCase) : Code :=
  [.gate c.entry.gate, .line (c.path ++ "(_) => \"" ++ c.type ++ "\",")]

/-- Without a plan, there is nothing to collect, and the arm is a single line. -/
def childrenArm (c : ViewCase) : Code :=
  .gate c.entry.gate ::
    if c.children.isNone then [.line (c.path ++ "(_) => \x7b\x7d")]
    else .openBlock (c.path ++ "(node) => \x7b") :: c.children.code c.type ++ [.closeBlock "\x7d"]

def pointerArm (c : ViewCase) : Code :=
  [.gate c.entry.gate, .line (c.path ++ "(node) => NonNull::from(node).cast(),")]

def positionText (c : ViewCase) : String :=
  if c.positioned then "node.span()" else TypeExpr.positionWord ++ "::default()"

/-- The conversion from a borrowed kind. -/
def conversion (c : ViewCase) : Code :=
  [.gate c.entry.gate,
    .openBlock ("impl<'a> From<&'a " ++ c.type ++ "> for " ++ Fixed.viewName ++ "<'a> \x7b"),
    .openBlock ("fn from(node: &'a " ++ c.type ++ ") -> Self \x7b"),
    .line (Fixed.viewName ++ "::new(node.id(), " ++ c.path ++ "(node), " ++ c.positionText ++ ")"),
    .closeBlock "\x7d", .closeBlock "\x7d", .blank]

end ViewCase

namespace ViewPlan

def derivesText : String := "#[derive(Debug, PartialEq, Clone, Copy)]"

def union (v : ViewPlan) : Code :=
  .line derivesText :: .openBlock ("pub enum " ++ Fixed.unionName ++ "<'a> \x7b") ::
    v.cases.flatMap ViewCase.unionCase ++ [.closeBlock "\x7d", .blank]

def struct : Code :=
  [.line derivesText, .openBlock ("pub struct " ++ Fixed.viewName ++ "<'a> \x7b"),
    .line ("pub id: " ++ Fixed.identityType ++ ","),
    .line ("pub kind: " ++ Fixed.unionName ++ "<'a>,"),
    .line ("pub span: " ++ TypeExpr.positionWord ++ ","),
    .closeBlock "\x7d", .blank]

def newMethod : Code :=
  [.openBlock ("pub fn new(id: " ++ Fixed.identityType ++ ", kind: " ++ Fixed.unionName ++
      "<'a>, span: " ++ TypeExpr.positionWord ++ ") -> Self \x7b"),
    .line "Self \x7b id, kind, span \x7d", .closeBlock "\x7d", .blank]

def nameMethod (v : ViewPlan) : Code :=
  .openBlock "pub fn name(&self) -> &'static str \x7b" :: .openBlock "match self.kind \x7b" ::
    v.cases.flatMap ViewCase.nameArm ++ [.closeBlock "\x7d", .closeBlock "\x7d"]

/-- Without any children, there is nothing to match. -/
def childrenMethod (v : ViewPlan) : Code :=
  .openBlock ("pub fn children(&self) -> Vec<" ++ Fixed.viewName ++ "<'a>> \x7b") ::
    if v.hasChildren then
      .line "let mut children = Vec::new();" :: .openBlock "match self.kind \x7b" ::
        v.cases.flatMap ViewCase.childrenArm ++
        [.closeBlock "\x7d", .line "children", .closeBlock "\x7d"]
    else [.line "Vec::new()", .closeBlock "\x7d"]

def pointerMethod (v : ViewPlan) : Code :=
  .openBlock "pub fn as_ptr(&self) -> NonNull<()> \x7b" :: .openBlock "match self.kind \x7b" ::
    v.cases.flatMap ViewCase.pointerArm ++ [.closeBlock "\x7d", .closeBlock "\x7d"]

def code (v : ViewPlan) : Code :=
  v.union ++ struct ++ .openBlock ("impl<'a> " ++ Fixed.viewName ++ "<'a> \x7b") ::
    newMethod ++ v.cases.flatMap ViewCase.narrowing ++ v.nameMethod ++ .blank ::
    v.childrenMethod ++ .blank :: v.pointerMethod ++ [.closeBlock "\x7d", .blank] ++
    v.cases.flatMap ViewCase.conversion

end ViewPlan

end TreeSchema
