import TreeSchema.Artifact
import TreeSchema.Proofs.Source.Piece

/-!
# The trees of the written code

For every plan, what is asked of the writer are the requests of a tree: each block that a renderer
starts is ended by it, whatever it writes in between, and wherever it stops early. The trees follow
the renderers part by part. Everything that belongs to an entry is a piece under its gate.
-/

namespace TreeSchema

open Piece

/-! ### Kinds -/

namespace Entry

variable (s : Schema)

def fieldPieces (visibility : String) (hasId : Bool) (fields : Fields) : List Piece :=
  (if hasId then [.line (identityText visibility)] else []) ++
    fields.map fun f => .line (fieldText s visibility f)

def variantPiece (v : String × Variant) : Piece :=
  match v.2 with
  | .unit => .line (v.1 ++ ",")
  | .wrap t => .line (v.1 ++ "(" ++ s.renderType t ++ "),")
  | .struct fields hasId => .block (v.1 ++ " \x7b") (fieldPieces s "" hasId fields) "\x7d,"

def definitionPieces (e : Entry) : List Piece :=
  match e.shape with
  | .aliasOf target =>
    [.line ("pub type " ++ e.displayName ++ " = " ++ s.renderType target ++ ";")]
  | .product fields =>
    [.line e.derivesText, .braces ("pub struct " ++ e.displayName)
      (fieldPieces s "pub " e.hasIdentity fields)]
  | .sum variants =>
    [.line e.derivesText, .braces ("pub enum " ++ e.displayName) (variants.map (variantPiece s))]

theorem allRequests_fieldPieces (visibility : String) (hasId : Bool) (fields : Fields) :
    allRequests (fieldPieces s visibility hasId fields) =
      (if hasId then [.line (identityText visibility)] else []) ++
        fields.map fun f => .line (fieldText s visibility f) := by
  rw [fieldPieces, allRequests_append, allRequests_lines]
  cases hasId <;> rfl

theorem requests_variantPiece (v : String × Variant) :
    (variantPiece s v).requests = variantCode s v := by
  obtain ⟨name, variant⟩ := v
  cases variant with
  | unit => rfl
  | wrap t => rfl
  | struct fields hasId => simp [variantPiece, requests, allRequests_fieldPieces, variantCode]

theorem allRequests_definitionPieces (e : Entry) :
    allRequests (e.definitionPieces s) = e.definition s := by
  unfold definitionPieces definition
  cases e.shape with
  | aliasOf target => rfl
  | product fields =>
    simp [braces, requests, allRequests_fieldPieces, String.append_assoc]
  | sum variants => simp [braces, requests, requests_variantPiece, String.append_assoc]

end Entry

namespace IdentityPlan

def bodyPiece : IdentityPlan → Piece
  | stored => .line "self.id"
  | dispatch arms => .braces "match self" (arms.map fun a => .line (armText a))

def pieces (e : Entry) (plan : IdentityPlan) : List Piece :=
  [.braces ("impl " ++ Fixed.identityTrait ++ " for " ++ e.displayName)
    [.braces ("fn id(&self) -> " ++ Fixed.identityType) [plan.bodyPiece]]]

theorem requests_bodyPiece (plan : IdentityPlan) : plan.bodyPiece.requests = plan.body := by
  cases plan with
  | stored => rfl
  | dispatch arms => simp only [bodyPiece, braces, requests, allRequests_lines]; rfl

end IdentityPlan

namespace PositionPlan

def bodyPiece : PositionPlan → Piece
  | field f => .line ("self." ++ f)
  | dispatch arms => .braces "match self" (arms.map fun a => .line (armText a))

def pieces (e : Entry) (plan : PositionPlan) : List Piece :=
  [.braces ("impl " ++ Fixed.positionTrait ++ " for " ++ e.displayName)
    [.braces ("fn span(&self) -> " ++ TypeExpr.positionWord) [plan.bodyPiece]]]

theorem requests_bodyPiece (plan : PositionPlan) : plan.bodyPiece.requests = plan.body := by
  cases plan with
  | field f => rfl
  | dispatch arms => simp only [bodyPiece, braces, requests, allRequests_lines]; rfl

end PositionPlan

namespace KindPlan

/-- An item under the entry's gate, with an empty line after it. -/
def item (p : KindPlan) (item : List Piece) : List Piece := [.guarded p.entry.gate item, .blank]

def pieces (s : Schema) (p : KindPlan) : List Piece :=
  p.item (p.entry.definitionPieces s) ++
    if p.entry.isAlias then []
    else
      (p.identity.elim [] fun i => p.item (i.pieces p.entry)) ++
      (p.position.elim [] fun q => p.item (q.pieces p.entry))

theorem code_eq (s : Schema) (p : KindPlan) : p.code s = allRequests (p.pieces s) := by
  have hidentity (i : IdentityPlan) : allRequests (p.item (i.pieces p.entry)) = i.code p.entry := by
    simp [item, IdentityPlan.pieces, braces, requests, IdentityPlan.requests_bodyPiece,
      IdentityPlan.code, String.append_assoc]
  have hposition (q : PositionPlan) : allRequests (p.item (q.pieces p.entry)) = q.code p.entry := by
    simp [item, PositionPlan.pieces, braces, requests, PositionPlan.requests_bodyPiece,
      PositionPlan.code, String.append_assoc]
  have haccessors : allRequests (if p.entry.isAlias then [] else
        (p.identity.elim [] fun i => p.item (i.pieces p.entry)) ++
        (p.position.elim [] fun q => p.item (q.pieces p.entry))) =
      if p.entry.isAlias then [] else
        (p.identity.elim [] fun i => i.code p.entry) ++
        (p.position.elim [] fun q => q.code p.entry) := by
    split
    · rfl
    · rw [allRequests_append]
      cases p.identity <;> cases p.position <;> simp [hidentity, hposition]
  rw [pieces, allRequests_append, haccessors, code]
  simp [item, requests, Entry.allRequests_definitionPieces]

end KindPlan

/-! ### Children -/

namespace Access

def piece : Access → Operand → ℕ → Piece
  | [], operand, _ =>
    .line ("children.push(" ++ Fixed.viewName ++ "::from(" ++ operand.asReference ++ "));")
  | .box :: rest, operand, depth => piece rest operand.content depth
  | .sequence :: rest, operand, depth =>
    .braces ("for " ++ itemName depth ++ " in " ++ operand.asReceiver ++ ".iter()")
      [piece rest (.reference (itemName depth)) (depth + 1)]
  | .separated :: rest, operand, depth =>
    .braces ("for " ++ itemName depth ++ " in " ++ operand.asReceiver ++ ".inner.iter()")
      [piece rest (.reference (itemName depth)) (depth + 1)]
  | .optional :: rest, operand, depth =>
    .braces ("if let Some(" ++ itemName depth ++ ") = " ++ operand.asReference)
      [piece rest (.reference (itemName depth)) (depth + 1)]

theorem requests_piece (a : Access) (o : Operand) (depth : ℕ) :
    (a.piece o depth).requests = a.code o depth := by
  induction a generalizing o depth with
  | nil => rfl
  | cons w a ih =>
    cases w with
    | box => exact ih o.content depth
    | _ => simp [piece, code, braces, requests, ih, String.append_assoc]

end Access

def VariantWalk.piece (type : String) (v : VariantWalk) : Piece :=
  match v.body with
  | .empty => .line (v.patternText type ++ " => \x7b\x7d")
  | .payload access =>
    .braces (v.patternText type ++ " =>") [access.piece (.reference "inner") 0]
  | .fields walks =>
    .braces (v.patternText type ++ " =>") (walks.map fun w => w.access.piece (.reference w.var) 0)

theorem VariantWalk.requests_piece (type : String) (v : VariantWalk) :
    (v.piece type).requests = v.code type := by
  cases hbody : v.body <;>
    simp [piece, code, hbody, braces, requests, Access.requests_piece, String.append_assoc]

namespace ChildrenPlan

def pieces (type : String) : ChildrenPlan → List Piece
  | none => []
  | fields walks => walks.map fun w => w.access.piece (.place (.field w.field)) 0
  | variants walks => [.braces "match node" (walks.map (VariantWalk.piece type))]

theorem code_eq (type : String) (plan : ChildrenPlan) :
    plan.code type = allRequests (plan.pieces type) := by
  cases plan with
  | none => rfl
  | fields walks => simp [pieces, code, Access.requests_piece]
  | variants walks => simp [pieces, code, braces, requests, VariantWalk.requests_piece]

end ChildrenPlan

/-! ### The view -/

namespace ViewCase

/-- A piece that is there only if the kind is. -/
def item (c : ViewCase) (item : Piece) : Piece := .guarded c.entry.gate [item]

def unionPieces (c : ViewCase) : List Piece :=
  [c.item (.line (c.type ++ "(&'a " ++ c.type ++ "),"))]

def asPiece (c : ViewCase) : Piece :=
  .braces ("pub fn " ++ c.asMethod ++ "(&self) -> Option<&'a " ++ c.type ++ ">")
    [.twoArmed ("if let " ++ c.path ++ "(node) = self.kind \x7b") [.line "Some(node)"]
      "\x7d else \x7b" [.line "None"] "\x7d"]

def isPiece (c : ViewCase) : Piece :=
  .braces ("pub fn " ++ c.isMethod ++ "(&self) -> bool")
    [.line ("matches!(self.kind, " ++ c.path ++ "(_))")]

def narrowingPieces (c : ViewCase) : List Piece :=
  [c.item c.asPiece, .blank, c.item c.isPiece, .blank]

def namePieces (c : ViewCase) : List Piece :=
  [c.item (.line (c.path ++ "(_) => \"" ++ c.type ++ "\","))]

def childrenPiece (c : ViewCase) : Piece :=
  if c.children.isNone then .line (c.path ++ "(_) => \x7b\x7d")
  else .braces (c.path ++ "(node) =>") (c.children.pieces c.type)

def childrenPieces (c : ViewCase) : List Piece := [c.item c.childrenPiece]

def pointerPieces (c : ViewCase) : List Piece :=
  [c.item (.line (c.path ++ "(node) => NonNull::from(node).cast(),"))]

def conversionPiece (c : ViewCase) : Piece :=
  .braces ("impl<'a> From<&'a " ++ c.type ++ "> for " ++ Fixed.viewName ++ "<'a>")
    [.braces ("fn from(node: &'a " ++ c.type ++ ") -> Self")
      [.line (Fixed.viewName ++ "::new(node.id(), " ++ c.path ++ "(node), " ++ c.positionText ++
        ")")]]

def conversionPieces (c : ViewCase) : List Piece := [c.item c.conversionPiece, .blank]

variable (c : ViewCase)

theorem unionCase_eq : c.unionCase = allRequests c.unionPieces := rfl

theorem narrowing_eq : c.narrowing = allRequests c.narrowingPieces := by
  simp [narrowing, narrowingPieces, item, asPiece, isPiece, braces, requests, String.append_assoc]

theorem nameArm_eq : c.nameArm = allRequests c.namePieces := rfl

theorem childrenArm_eq : c.childrenArm = allRequests c.childrenPieces := by
  unfold childrenArm childrenPieces childrenPiece
  split <;> simp [item, braces, requests, ChildrenPlan.code_eq, String.append_assoc]

theorem pointerArm_eq : c.pointerArm = allRequests c.pointerPieces := rfl

theorem conversion_eq : c.conversion = allRequests c.conversionPieces := by
  simp [conversion, conversionPieces, item, conversionPiece, braces, requests, String.append_assoc]

end ViewCase

namespace ViewPlan

def structPieces : List Piece :=
  [.line derivesText, .braces ("pub struct " ++ Fixed.viewName ++ "<'a>")
      [.line ("pub id: " ++ Fixed.identityType ++ ","),
        .line ("pub kind: " ++ Fixed.unionName ++ "<'a>,"),
        .line ("pub span: " ++ TypeExpr.positionWord ++ ",")],
    .blank]

def newPieces : List Piece :=
  [.braces ("pub fn new(id: " ++ Fixed.identityType ++ ", kind: " ++ Fixed.unionName ++
      "<'a>, span: " ++ TypeExpr.positionWord ++ ") -> Self")
      [.line "Self \x7b id, kind, span \x7d"],
    .blank]

/-- The methods of the view around what they say of each kind. -/
def methodPieces (narrowing names children pointers : List Piece) : List Piece :=
  newPieces ++ narrowing ++
    [.braces "pub fn name(&self) -> &'static str" [.braces "match self.kind" names], .blank,
      .braces "pub fn children(&self) -> Vec<Node<'a>>" children, .blank,
      .braces "pub fn as_ptr(&self) -> NonNull<()>" [.braces "match self.kind" pointers]]

/-- The view around what it says of each kind. -/
def frame (cases narrowing names children pointers conversions : List Piece) : List Piece :=
  [.line derivesText, .braces "pub enum NodeKind<'a>" cases, .blank] ++ structPieces ++
    [.braces "impl<'a> Node<'a>" (methodPieces narrowing names children pointers), .blank] ++
    conversions

/-- The body of the method for children. -/
def childrenBody (walked : Bool) (arms : List Piece) : List Piece :=
  if walked then
    [.line "let mut children = Vec::new();", .braces "match self.kind" arms, .line "children"]
  else [.line "Vec::new()"]

/-- The parts of the view that belong to cases, each from its own code for a case. -/
def pieces (view : ViewPlan) : List Piece :=
  frame (view.cases.flatMap ViewCase.unionPieces) (view.cases.flatMap ViewCase.narrowingPieces)
    (view.cases.flatMap ViewCase.namePieces)
    (childrenBody view.hasChildren (view.cases.flatMap ViewCase.childrenPieces))
    (view.cases.flatMap ViewCase.pointerPieces) (view.cases.flatMap ViewCase.conversionPieces)

theorem union_eq (view : ViewPlan) : view.union = allRequests [.line derivesText,
    .braces "pub enum NodeKind<'a>" (view.cases.flatMap ViewCase.unionPieces), .blank] := by
  simp only [union, funext ViewCase.unionCase_eq, braces, requests, allRequests_cons,
    allRequests_nil, allRequests_flatMap, List.append_assoc, List.cons_append]
  rfl

theorem nameMethod_eq (view : ViewPlan) : view.nameMethod =
    (braces "pub fn name(&self) -> &'static str" [.braces "match self.kind"
      (view.cases.flatMap ViewCase.namePieces)]).requests := by
  simp [nameMethod, funext ViewCase.nameArm_eq, braces, requests]

theorem childrenMethod_eq (view : ViewPlan) : view.childrenMethod =
    (braces "pub fn children(&self) -> Vec<Node<'a>>" (childrenBody view.hasChildren
      (view.cases.flatMap ViewCase.childrenPieces))).requests := by
  unfold childrenMethod childrenBody
  split
  · simp [braces, requests, funext ViewCase.childrenArm_eq]
    rfl
  · rfl

theorem pointerMethod_eq (view : ViewPlan) : view.pointerMethod =
    (braces "pub fn as_ptr(&self) -> NonNull<()>" [.braces "match self.kind"
      (view.cases.flatMap ViewCase.pointerPieces)]).requests := by
  simp [pointerMethod, funext ViewCase.pointerArm_eq, braces, requests]

theorem code_eq (view : ViewPlan) : view.code = allRequests view.pieces := by
  have hstruct : struct = allRequests structPieces := rfl
  have hnew : newMethod = allRequests newPieces := rfl
  have himpl (body : List Piece) : (braces "impl<'a> Node<'a>" body).requests =
      .openBlock ("impl<'a> " ++ Fixed.viewName ++ "<'a> \x7b") :: allRequests body ++
        [.closeBlock "\x7d"] := rfl
  have hblank : blank.requests = [.blank] := rfl
  simp [pieces, frame, methodPieces, code, himpl, hstruct, hnew, hblank, union_eq, nameMethod_eq,
    childrenMethod_eq, pointerMethod_eq, funext ViewCase.narrowing_eq,
    funext ViewCase.conversion_eq]

end ViewPlan

/-! ### The artifact -/

namespace Artifact

def headerPieces (schemaPath : String) : List Piece :=
  [.line ("// This file is generated by astgen from " ++ schemaPath ++ "."),
    .line "// Do not make modifications to this file directly.", .blank]

def importPieces (imports : List String) : List Piece :=
  imports.map (fun path => .line ("use " ++ path ++ ";")) ++
    [.line "use std::ptr::NonNull;", .blank]

theorem header_pieces (schemaPath : String) :
    header schemaPath = allRequests (headerPieces schemaPath) := rfl

theorem importLines_pieces (imports : List String) :
    importLines imports = allRequests (importPieces imports) := by
  rw [importPieces, allRequests_append, allRequests_lines]
  rfl

end Artifact

end TreeSchema
