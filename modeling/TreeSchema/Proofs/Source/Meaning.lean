import TreeSchema.Name
import TreeSchema.Proofs.Source.Grammar

/-!
# What bodies of accessors do

Statements run on values and give the nodes that are pushed, in order. There is a result only if
every step on the way is well typed.
-/

namespace TreeSchema.Source

/-- Values of the types that a schema declares, and of what the statements make from them. -/
inductive Value (ν : Type) where
  | node (n : ν)
  | box (content : Value ν)
  | list (elements : List (Value ν))
  | option (content : Option (Value ν))
  /-- Fields; a separated list has its elements in the field `inner`. -/
  | record (fields : List (String × Value ν))
  /-- A variant of a sum, whose payload is the field `0`. -/
  | variant (type name : String) (form : PatternForm) (fields : List (String × Value ν))
  | ref (target : Value ν)
  /-- The references that a loop goes through. -/
  | iter (items : List (Value ν))
  /-- What is made of a reference to a node, to be pushed. -/
  | view (n : ν)
  /-- The list of children in the making. -/
  | children

namespace Value

variable {ν : Type}

/-- The references in front of what a field or a method belongs to are passed. -/
def behind : Value ν → Value ν
  | ref v => v.behind
  | v => v

/-- What a star gives. -/
def content? : Value ν → Option (Value ν)
  | ref v => some v
  | box v => some v
  | _ => none

def field? (v : Value ν) (name : String) : Option (Value ν) :=
  match v.behind with
  | record fields => fields.lookup name
  | _ => none

def iter? (v : Value ν) : Option (Value ν) :=
  match v.behind with
  | list vs => some (iter (vs.map ref))
  | _ => none

def view? : Value ν → Option (Value ν)
  | ref (node n) => some (view n)
  | _ => none

end Value

/-- Variables with their values, the innermost first. -/
abbrev Env (ν : Type) := List (String × Value ν)

section

variable {ν : Type}

def Expr.eval (env : Env ν) : Expr → Option (Value ν)
  | var name => env.lookup name
  | deref e => (e.eval env).bind Value.content?
  | ref e => (e.eval env).map .ref
  | field e name => (e.eval env).bind fun v => v.field? name
  | method e "iter" => (e.eval env).bind Value.iter?
  | call type "from" e => if type = Fixed.viewName then (e.eval env).bind Value.view? else none
  | _ => none

/-- An expression is a statement if it pushes a node. -/
def Expr.pushed (env : Env ν) : Expr → Option ν
  | methodWith list "push" arg =>
    match list.eval env, arg.eval env with
    | some .children, some (.view n) => some n
    | _, _ => none
  | _ => none

mutual

def Stmt.run (env : Env ν) : Stmt → Option (List ν)
  | .expr e => (e.pushed env).map fun n => [n]
  | .forIn item e body =>
    match e.eval env with
    | some (.iter vs) => (vs.mapM fun v => runAll ((item, v) :: env) body).map List.flatten
    | _ => none
  | .ifSome item e body =>
    match e.eval env with
    | some (.ref (.option none)) => some []
    | some (.ref (.option (some v))) => runAll ((item, .ref v) :: env) body
    | _ => none

def runAll (env : Env ν) : List Stmt → Option (List ν)
  | [] => some []
  | s :: ss => (s.run env).bind fun ns => (runAll env ss).map fun rest => ns ++ rest

end

/-- The pattern is one of the type, takes each field once and gives each variable once. -/
def Clause.IsValid (type : String) (c : Clause) : Prop :=
  c.type = type ∧ (c.bindings.map Prod.fst).Nodup ∧ (c.bindings.map Prod.snd).Nodup

instance (type : String) (c : Clause) : Decidable (c.IsValid type) :=
  inferInstanceAs (Decidable (c.type = type ∧ _ ∧ _))

/-- The variables of a pattern, which hold references to the fields. -/
def bind? (fields : List (String × Value ν)) (b : String × String) : Option (String × Value ν) :=
  (fields.lookup b.1).map fun v => (b.2, .ref v)

/-- The first clause for the variant is taken. -/
def runClauses (env : Env ν) (clauses : List Clause) : Value ν → Option (List ν)
  | .ref (.variant type name form fields) =>
    if ∀ c ∈ clauses, c.IsValid type then
      (clauses.find? fun c => c.variant = name).bind fun c =>
        if c.form = form then
          (c.bindings.mapM (bind? fields)).bind fun vars => runAll (vars ++ env) c.body
        else none
    else none
  | _ => none

/-- Run the body of the accessor on a node; the result is what ends up in `children`. -/
def Body.run (node : Value ν) (b : Body) : Option (List ν) :=
  let env := [("node", .ref node), ("children", .children)]
  match b with
  | statements body => runAll env body
  | cases scrutinee clauses => (env.lookup scrutinee).bind (runClauses env clauses)

/-! ### Runs over lists -/

theorem mapM_eq_map {α β : Type} {f : α → Option β} {g : α → β} {l : List α}
    (h : ∀ x ∈ l, f x = some (g x)) : l.mapM f = some (l.map g) := by
  induction l with
  | nil => rfl
  | cons x l ih =>
    rw [List.forall_mem_cons] at h
    simp [List.mapM_cons, h.1, ih h.2]

theorem mapM_eq_filterMap {α β : Type} {f : α → Option β} {l : List α}
    (h : ∀ x ∈ l, (f x).isSome = true) : l.mapM f = some (l.filterMap f) := by
  induction l with
  | nil => rfl
  | cons x l ih =>
    rw [List.forall_mem_cons] at h
    obtain ⟨y, hy⟩ := Option.isSome_iff_exists.mp h.1
    simp [List.mapM_cons, hy, ih h.2]

theorem runAll_singleton (env : Env ν) (s : Stmt) : runAll env [s] = s.run env := by
  cases h : s.run env <;> simp [runAll, h]

theorem runAll_map {α : Type} {env : Env ν} {f : α → Stmt} {g : α → List ν} {l : List α}
    (h : ∀ x ∈ l, (f x).run env = some (g x)) : runAll env (l.map f) = some (l.flatMap g) := by
  induction l with
  | nil => simp [runAll]
  | cons x l ih =>
    rw [List.forall_mem_cons] at h
    simp [runAll, h.1, ih h.2]

/-- A loop over references to the elements of a list. -/
theorem run_forIn {env : Env ν} {item : String} {e : Expr} {body : Stmt} {vs : List (Value ν)}
    {g : Value ν → List ν} (he : e.eval env = some (.iter (vs.map .ref)))
    (h : ∀ v ∈ vs, body.run ((item, .ref v) :: env) = some (g v)) :
    (Stmt.forIn item e [body]).run env = some (vs.flatMap g) := by
  have hloop : (vs.map Value.ref).mapM (fun v => runAll ((item, v) :: env) [body]) =
      some (vs.map g) := by
    rw [List.mapM_map]
    apply mapM_eq_map
    intro v hv
    rw [Function.comp_apply, runAll_singleton, h v hv]
  simp [Stmt.run, he, hloop, List.flatMap_def]

end

end TreeSchema.Source
