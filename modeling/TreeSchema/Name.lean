import TreeSchema.Text.Blank
import TreeSchema.Text.LetterCase

/-!
# Names

The words that may name a type, a variant or a field, paths of such words, the name under which a
kind is reached from the view, and the names that the written source text uses by itself.
-/

namespace TreeSchema.Name

/-- Strict and reserved words; none of them can name a type, a variant or a field. -/
def keywords : List String := [
  "Self", "abstract", "as", "async", "await", "become", "box", "break", "const", "continue",
  "crate", "do", "dyn", "else", "enum", "extern", "false", "final", "fn", "for", "if", "impl",
  "in", "let", "loop", "macro", "match", "mod", "move", "mut", "override", "priv", "pub", "ref",
  "return", "self", "static", "struct", "super", "trait", "true", "try", "type", "typeof",
  "unsafe", "unsized", "use", "virtual", "where", "while", "yield"]

def isKeyword (s : String) : Bool := keywords.contains s

/-- The built-in scalar types, which need no declaration. -/
def primitives : List String := [
  "bool", "char", "String", "u8", "u16", "u32", "u64", "u128", "usize", "i8", "i16", "i32", "i64",
  "i128", "isize", "f32", "f64"]

def isPrimitive (s : String) : Bool := primitives.contains s

/-- ASCII letters and the underscore start a word. -/
def isWordStart (c : Char) : Bool := c.isAlpha || c == '_'

/-- ASCII letters, digits and the underscore continue it. -/
def isWordPart (c : Char) : Bool := c.isAlphanum || c == '_'

def isWord : List Char → Bool
  | [] => false
  | c :: cs => isWordStart c && cs.all isWordPart

/-- A word that is neither a keyword nor a lone underscore. -/
def isIdent (s : String) : Bool :=
  s != "_" && isWord s.toList && !isKeyword s

/-- The pieces of a text between double colons. -/
def segments : List Char → List (List Char)
  | [] => [[]]
  | ':' :: ':' :: cs => [] :: segments cs
  | c :: cs =>
    match segments cs with
    | [] => [[c]]
    | s :: rest => (c :: s) :: rest

/-- One word, or several between double colons. -/
def isPath (s : String) : Bool := (segments s.toList).all isWord

/-- What stands before the first double colon. -/
def beforeColons : List Char → List Char
  | [] => []
  | ':' :: ':' :: _ => []
  | c :: cs => c :: beforeColons cs

/-- What stands after the last double colon of a path. -/
def lastSegment (path : String) : String :=
  String.ofList (beforeColons path.toList.reverse).reverse

/-- Small letters, with an underscore before each capital that follows another character. -/
def snakeChars : List Char → List Char
  | [] => []
  | [c] => Text.LetterCase.small c
  | c :: d :: cs =>
    Text.LetterCase.small c ++ (if Text.LetterCase.isCapital d then ['_'] else []) ++
      snakeChars (d :: cs)

/-- The form of a kind's name that its accessors use; blanks are dropped. -/
def snakeCase (name : String) : String :=
  String.ofList (snakeChars (name.toList.filter fun c => !Text.isBlank c))

end TreeSchema.Name

/-! ### Fixed names -/

namespace TreeSchema.Fixed

/-- The type of identities; a product stores one in its field `id`. -/
def identityType : String := "NodeId"

/-- The trait with the method `id`. -/
def identityTrait : String := "HasId"

/-- The trait with the method `span`. -/
def positionTrait : String := "Spanned"

/-- The identity of what has none of its own. -/
def noIdentity : String := "0"

/-- The union of borrowed kinds. -/
def unionName : String := "NodeKind"

/-- The view of a node, whatever its kind. -/
def viewName : String := "Node"

end TreeSchema.Fixed
