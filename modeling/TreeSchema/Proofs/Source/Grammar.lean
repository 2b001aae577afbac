import TreeSchema.Kind.Plan
import TreeSchema.Proofs.Source.Token

/-!
# Reading bodies of accessors

Nested tokens are read as expressions, statements and the clauses of a match. In an expression
the signs `*` and `&` reach as far to the right as they can, so `*a.b` is the content of `a.b`.
-/

namespace TreeSchema.Source

inductive Expr where
  | var (name : String)
  | deref (e : Expr)
  | ref (e : Expr)
  | field (e : Expr) (name : String)
  | method (e : Expr) (name : String)
  | methodWith (e : Expr) (name : String) (arg : Expr)
  /-- A function that belongs to a type. -/
  | call (type function : String) (arg : Expr)
  deriving DecidableEq, Repr

inductive Stmt where
  | expr (e : Expr)
  | forIn (item : String) (e : Expr) (body : List Stmt)
  | ifSome (item : String) (e : Expr) (body : List Stmt)

/-- A clause of a match, with the fields that its pattern takes out and their variables. The
payload of a variant is the field `0`. -/
structure Clause where
  type : String
  variant : String
  form : PatternForm
  bindings : List (String × String)
  body : List Stmt

inductive Body where
  | statements (body : List Stmt)
  | cases (scrutinee : String) (clauses : List Clause)

mutual

def expr : List Tree → Option Expr
  | .token (.mark "*") :: ts => (expr ts).map .deref
  | .token (.mark "&") :: ts => (expr ts).map .ref
  | .token (.ident t) :: .token (.mark "::") :: .token (.ident f) :: .group .parens arg :: ts =>
    (expr arg).bind fun a => suffixes (.call t f a) ts
  | .token (.ident x) :: ts => suffixes (.var x) ts
  | .group .parens body :: ts => (expr body).bind fun e => suffixes e ts
  | _ => none

/-- The fields and methods after an expression. -/
def suffixes : Expr → List Tree → Option Expr
  | e, [] => some e
  | e, .token (.mark ".") :: .token (.ident m) :: .group .parens [] :: ts =>
    suffixes (.method e m) ts
  | e, .token (.mark ".") :: .token (.ident m) :: .group .parens arg :: ts =>
    (expr arg).bind fun a => suffixes (.methodWith e m a) ts
  | e, .token (.mark ".") :: .token (.ident f) :: ts => suffixes (.field e f) ts
  | _, _ => none

end

/-- A statement with a block, from what stands before the block. -/
def headed : List Tree → List Stmt → Option Stmt
  | .token (.mark "for") :: .token (.ident x) :: .token (.mark "in") :: e, body =>
    (expr e).map fun e => .forIn x e body
  | .token (.mark "if") :: .token (.mark "let") :: .token (.ident "Some") ::
      .group .parens [.token (.ident x)] :: .token (.mark "=") :: e, body =>
    (expr e).map fun e => .ifSome x e body
  | _, _ => none

/-- Statements end with a semicolon or a block; `header` is what stands before that. -/
def stmts (header : List Tree) : List Tree → Option (List Stmt)
  | [] => if header.isEmpty then some [] else none
  | .token (.mark ";") :: ts =>
    (expr header).bind fun e => (stmts [] ts).map fun rest => .expr e :: rest
  | .group .braces body :: ts =>
    (stmts [] body).bind fun b => (headed header b).bind fun s =>
      (stmts [] ts).map fun rest => s :: rest
  | t :: ts => stmts (header ++ [t]) ts

/-- Fields with their variables, and two dots for the others. -/
def bindings : List Tree → Option (List (String × String))
  | [.token (.mark "..")] => some []
  | .token (.ident f) :: .token (.mark ",") :: ts => (bindings ts).map fun bs => (f, f) :: bs
  | .token (.ident f) :: .token (.mark ":") :: .token (.ident x) :: .token (.mark ",") :: ts =>
    (bindings ts).map fun bs => (f, x) :: bs
  | _ => none

def clause (body : List Stmt) : List Tree → Option Clause
  | .token (.ident t) :: .token (.mark "::") :: .token (.ident v) :: rest =>
    match rest with
    | [] => some ⟨t, v, .unit, [], body⟩
    | [.group .parens [.token (.mark "_")]] => some ⟨t, v, .tuple, [], body⟩
    | [.group .parens [.token (.ident x)]] => some ⟨t, v, .tuple, [("0", x)], body⟩
    | [.group .braces fields] => (bindings fields).map fun bs => ⟨t, v, .struct, bs, body⟩
    | _ => none
  | _ => none

/-- Each clause has an arrow and a block; `pattern` is what stands before the arrow. -/
def clauses (pattern : List Tree) : List Tree → Option (List Clause)
  | [] => if pattern.isEmpty then some [] else none
  | .token (.mark "=>") :: .group .braces body :: ts =>
    (stmts [] body).bind fun b => (clause b pattern).bind fun c =>
      (clauses [] ts).map fun rest => c :: rest
  | t :: ts => clauses (pattern ++ [t]) ts

def body : List Tree → Option Body
  | [.token (.mark "match"), .token (.ident x), .group .braces cs] =>
    (clauses [] cs).map (.cases x)
  | ts => (stmts [] ts).map .statements

/-- The body that a text spells. -/
def read (text : String) : Option Body := (trees text).bind body

end TreeSchema.Source
