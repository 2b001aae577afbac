import TreeSchema.Code
import TreeSchema.Kind.Plan
import TreeSchema.Name

/-!
# Source text of a kind

The definition of a kind's type and the implementations of its accessors, each under the gate of
its entry.
-/

namespace TreeSchema

namespace PatternForm

/-- The pattern of a variant that takes one binding, or ignores what the variant holds. -/
def pattern (form : PatternForm) (variant : String) (binding : Option String) : String :=
  match form, binding with
  | unit, _ => "Self::" ++ variant
  | tuple, some b => "Self::" ++ variant ++ "(" ++ b ++ ")"
  | tuple, none => "Self::" ++ variant ++ "(_)"
  | struct, some b => "Self::" ++ variant ++ " \x7b " ++ b ++ ", .. \x7d"
  | struct, none => "Self::" ++ variant ++ " \x7b .. \x7d"

end PatternForm

/-- One arm of a match, on one line. -/
def Arm.text {α : Type} (a : Arm α) (binding : Option String) (result : String) : String :=
  a.form.pattern a.variant binding ++ " => " ++ result ++ ","

namespace Entry

def derivesText (e : Entry) : String := "#[derive(" ++ ", ".intercalate e.derives ++ ")]"

def fieldText (s : Schema) (visibility : String) (f : String × TypeExpr) : String :=
  visibility ++ f.1 ++ ": " ++ s.renderType f.2 ++ ","

def identityText (visibility : String) : String :=
  visibility ++ "id: " ++ Fixed.identityType ++ ","

def variantCode (s : Schema) (v : String × Variant) : Code :=
  match v.2 with
  | .unit => [.line (v.1 ++ ",")]
  | .wrap t => [.line (v.1 ++ "(" ++ s.renderType t ++ "),")]
  | .struct fields hasId =>
    .openBlock (v.1 ++ " \x7b") :: (if hasId then [.line (identityText "")] else []) ++
      (fields.map fun f => .line (fieldText s "" f)) ++ [.closeBlock "\x7d,"]

/-- The definition of the type. -/
def definition (s : Schema) (e : Entry) : Code :=
  match e.shape with
  | .aliasOf target =>
    [.line ("pub type " ++ e.displayName ++ " = " ++ s.renderType target ++ ";")]
  | .product fields =>
    .line e.derivesText :: .openBlock ("pub struct " ++ e.displayName ++ " \x7b") ::
      (if e.hasIdentity then [.line (identityText "pub ")] else []) ++
      (fields.map fun f => .line (fieldText s "pub " f)) ++ [.closeBlock "\x7d"]
  | .sum variants =>
    .line e.derivesText :: .openBlock ("pub enum " ++ e.displayName ++ " \x7b") ::
      variants.flatMap (variantCode s) ++ [.closeBlock "\x7d"]

end Entry

namespace IdentityPlan

def armText (a : Arm IdentityAction) : String :=
  match a.action with
  | .none => a.text none Fixed.noIdentity
  | .stored => a.text (some "id") "*id"
  | .delegate => a.text (some "inner") "inner.id()"

def body : IdentityPlan → Code
  | stored => [.line "self.id"]
  | dispatch arms =>
    .openBlock "match self \x7b" :: (arms.map fun a => .line (armText a)) ++
      [.closeBlock "\x7d"]

def code (e : Entry) (plan : IdentityPlan) : Code :=
  .gate e.gate ::
    .openBlock ("impl " ++ Fixed.identityTrait ++ " for " ++ e.displayName ++ " \x7b") ::
    .openBlock ("fn id(&self) -> " ++ Fixed.identityType ++ " \x7b") ::
    plan.body ++ [.closeBlock "\x7d", .closeBlock "\x7d", .blank]

end IdentityPlan

namespace PositionPlan

def armText (a : Arm PositionAction) : String :=
  match a.action with
  | .payload => a.text (some "span") "*span"
  | .field f => a.text (some f) ("*" ++ f)
  | .forward => a.text (some "inner") "inner.span()"
  | .none => a.text none (TypeExpr.positionWord ++ "::default()")

def body : PositionPlan → Code
  | field f => [.line ("self." ++ f)]
  | dispatch arms =>
    .openBlock "match self \x7b" :: (arms.map fun a => .line (armText a)) ++
      [.closeBlock "\x7d"]

def code (e : Entry) (plan : PositionPlan) : Code :=
  .gate e.gate ::
    .openBlock ("impl " ++ Fixed.positionTrait ++ " for " ++ e.displayName ++ " \x7b") ::
    .openBlock ("fn span(&self) -> " ++ TypeExpr.positionWord ++ " \x7b") ::
    plan.body ++ [.closeBlock "\x7d", .closeBlock "\x7d", .blank]

end PositionPlan

/-- An alias is only defined; a kind also gets its accessors. -/
def KindPlan.code (s : Schema) (p : KindPlan) : Code :=
  .gate p.entry.gate :: p.entry.definition s ++ .blank ::
    if p.entry.isAlias then []
    else
      (p.identity.elim [] fun i => i.code p.entry) ++
      (p.position.elim [] fun q => q.code p.entry)

end TreeSchema
