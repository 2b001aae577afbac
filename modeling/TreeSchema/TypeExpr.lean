import TreeSchema.Name

/-!
# Type expressions

The types that a schema may mention: a chain of wrappers around the position type or around a
name. `TypeExpr.parse` reads them, `TypeExpr.render` writes them.
-/

namespace TreeSchema

/-- The containers that a type may be wrapped in. -/
inductive Wrapper where
  | box
  | sequence
  /-- Ordered elements with the text between them; the elements are its `inner` list. -/
  | separated
  | optional
  deriving DecidableEq, Repr

namespace Wrapper

def all : List Wrapper := [.box, .sequence, .separated, .optional]

/-- The word that names the container. -/
def word : Wrapper → String
  | box => "Box"
  | sequence => "Vec"
  | separated => "CommaSeparated"
  | optional => "Option"

def ofWord? (s : String) : Option Wrapper := all.find? fun w => w.word == s

end Wrapper

inductive TypeExpr where
  /-- A place in the source text. -/
  | position
  /-- A primitive, an imported name, a path, or an entry of the schema. -/
  | named (name : String)
  | wrap (wrapper : Wrapper) (inner : TypeExpr)
  deriving DecidableEq, Repr

namespace TypeExpr

/-- The name of the position type. -/
def positionWord : String := "Span"

/-- Why a text is no type expression. -/
inductive Fault where
  | empty
  | openAngle (text : String)
  | closeAngle (text : String)
  | parameters (constructor text : String)
  | constructor (constructor text : String)
  | name (text : String)
  deriving DecidableEq, Repr

def Fault.message : Fault → String
  | empty => "empty type expression"
  | openAngle text => s!"unbalanced `<` in `{text}`"
  | closeAngle text => s!"unbalanced `>` in `{text}`"
  | parameters c text => s!"`{c}` takes exactly one type parameter in `{text}`"
  | constructor c text => s!"unsupported type constructor `{c}` in `{text}`"
  | name text => s!"`{text}` is not a type name"

/-- Some comma lies outside all angle brackets; a bracket that closes nothing is passed over. -/
def hasOuterComma (depth : Nat) : List Char → Bool
  | [] => false
  | '<' :: cs => hasOuterComma (depth + 1) cs
  | '>' :: cs => hasOuterComma (depth - 1) cs
  | ',' :: cs => depth == 0 || hasOuterComma depth cs
  | _ :: cs => hasOuterComma depth cs

/-- The text without its last character, when that is a closing bracket. -/
def withoutClose (cs : List Char) : Option (List Char) :=
  if cs.getLast? = some '>' then some cs.dropLast else none

theorem length_withoutClose_le {cs inner : List Char} (h : withoutClose cs = some inner) :
    inner.length ≤ cs.length := by
  unfold withoutClose at h
  split at h
  · cases h; simp
  · cases h

theorem length_angle_lt {src rest : List Char} {c : Char}
    (h : (Text.trimChars src).dropWhile (· != '<') = c :: rest) : rest.length < src.length := by
  have h₁ : ((Text.trimChars src).dropWhile (· != '<')).length ≤ (Text.trimChars src).length :=
    (List.dropWhile_sublist _).length_le
  have h₂ := Text.length_trimChars_le src
  rw [h, List.length_cons] at h₁
  omega

/-- A text without angle brackets: the position type or a name. -/
def parseLeaf (text : List Char) : Except Fault TypeExpr :=
  let s := String.ofList text
  if text.contains '>' then .error (.closeAngle s)
  else if !Name.isPath s then .error (.name s)
  else if s = positionWord then .ok .position
  else .ok (.named s)

/-- Put the constructor that `text` starts with around a type. -/
def applyConstructor (word text : String) (inner : TypeExpr) : Except Fault TypeExpr :=
  match Wrapper.ofWord? word with
  | some w => .ok (.wrap w inner)
  | none => .error (.constructor word text)

/-- Read a type expression. The parameter of a constructor is read before its name is looked at,
so the innermost fault is the one reported. -/
def parseChars (src : List Char) : Except Fault TypeExpr :=
  match h : (Text.trimChars src).dropWhile (· != '<') with
  | [] =>
    let text := Text.trimChars src
    if text.isEmpty then .error .empty else parseLeaf text
  | _ :: rest =>
    let text := String.ofList (Text.trimChars src)
    match hr : withoutClose rest with
    | none => .error (.openAngle text)
    | some inner =>
      let word := String.ofList
        (Text.trimChars ((Text.trimChars src).takeWhile (· != '<')))
      have : inner.length < src.length :=
        Nat.lt_of_le_of_lt (length_withoutClose_le hr) (length_angle_lt h)
      if hasOuterComma 0 inner then .error (.parameters word text)
      else
        match parseChars inner with
        | .error e => .error e
        | .ok t => applyConstructor word text t
termination_by src.length

def parse (src : String) : Except Fault TypeExpr := parseChars src.toList

/-- Write a type, with each name replaced by `nameOf`. -/
def render (nameOf : String → String) : TypeExpr → String
  | position => positionWord
  | named name => nameOf name
  | wrap w inner => w.word ++ "<" ++ inner.render nameOf ++ ">"

def isPosition : TypeExpr → Bool
  | position => true
  | _ => false

/-- The type inside one box, if there is one. -/
def unboxed : TypeExpr → TypeExpr
  | wrap .box inner => inner
  | t => t

/-- The name at the core of a type, as a list with at most one member. -/
def names : TypeExpr → List String
  | position => []
  | named name => [name]
  | wrap _ inner => inner.names

/-- The number of wrappers. -/
def depth : TypeExpr → Nat
  | wrap _ inner => inner.depth + 1
  | _ => 0

end TypeExpr

end TreeSchema
