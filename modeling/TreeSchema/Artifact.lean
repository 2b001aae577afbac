import TreeSchema.Schema.Check
import TreeSchema.View.Source

/-!
# The artifact

The whole source text for a schema: a header, the imports, every kind in order, and the view. All
plans are made before the first line is written.
-/

namespace TreeSchema

/-- Where the schema is, where the source text goes, and what that imports. -/
structure Config where
  schemaPath : String := "meta/ast.yaml"
  outPath : String := "src/generated.rs"
  /-- The paths that the source text imports; their last segments need no declaration. -/
  imports : List String :=
    ["crate::HasId", "crate::utils::CommaSeparated", "pxp_span::Span", "pxp_span::Spanned"]
  /-- Refuse variants without a position. -/
  strict : Bool := false
  deriving DecidableEq, Repr

namespace Artifact

open Checked (collect require)

/-- The imports whose names the schema does not define itself, each once. -/
def imports (s : Schema) (c : Config) : List String :=
  c.imports.foldl (fun out path =>
    if (s.resolve (Name.lastSegment path)).isEmpty && !out.contains path then out ++ [path]
    else out) []

def importedNames (s : Schema) (c : Config) : List String := (imports s c).map Name.lastSegment

/-- Kinds with a position need the trait for it. -/
def checkPositionTrait (s : Schema) (imported : List String) (p : Positions) :
    Except Error Unit :=
  match s.entries.find? fun e => p.contains e.name with
  | none => .ok ()
  | some first =>
    require (imported.contains Fixed.positionTrait || !(s.resolve Fixed.positionTrait).isEmpty)
      (.undeclared first.name .trait Fixed.positionTrait)

/-- All that the text is written from. -/
structure Plan where
  imports : List String
  kinds : List KindPlan
  view : ViewPlan

def plan (s : Schema) (c : Config) : Except Error Plan := do
  s.check (importedNames s c)
  let p := Positions.analyze s
  checkPositionTrait s (importedNames s c) p
  let kinds ← collect (KindPlan.ofEntry s p c.strict) s.entries
  let view ← ViewPlan.ofSchema s p
  return ⟨imports s c, kinds, view⟩

def header (schemaPath : String) : Code :=
  [.line ("// This file is generated by astgen from " ++ schemaPath ++ "."),
    .line "// Do not make modifications to this file directly.", .blank]

def importLines (imports : List String) : Code :=
  imports.map (fun path => .line ("use " ++ path ++ ";")) ++
    [.line "use std::ptr::NonNull;", .blank]

/-- All that is asked of the writer. -/
def code (s : Schema) (schemaPath : String) (p : Plan) : Code :=
  header schemaPath ++ importLines p.imports ++ p.kinds.flatMap (KindPlan.code s) ++ p.view.code

/-- Check a schema and write the text for it. -/
def generate (s : Schema) (c : Config) : Except Error String :=
  (plan s c).map fun p => Code.text (code s c.schemaPath p)

end Artifact

end TreeSchema
