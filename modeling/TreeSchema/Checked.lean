/-!
# Checks over lists

A check of every item, and a construction from every item; both stop at the first error.
-/

namespace TreeSchema.Checked

variable {ε α β : Type}

/-- Check the items in turn. -/
def forEach (f : α → Except ε Unit) : List α → Except ε Unit
  | [] => .ok ()
  | a :: as =>
    match f a with
    | .error e => .error e
    | .ok () => forEach f as

/-- Build one result for each item. -/
def collect (f : α → Except ε β) : List α → Except ε (List β)
  | [] => .ok []
  | a :: as =>
    match f a with
    | .error e => .error e
    | .ok b =>
      match collect f as with
      | .error e => .error e
      | .ok bs => .ok (b :: bs)

/-- An error unless the condition holds. -/
def require (condition : Bool) (e : ε) : Except ε Unit :=
  if condition then .ok () else .error e

theorem require_eq_ok_iff {condition : Bool} {e : ε} :
    require condition e = .ok () ↔ condition = true := by
  cases condition <;> simp [require]

theorem forEach_eq_ok_iff {f : α → Except ε Unit} {l : List α} :
    forEach f l = .ok () ↔ ∀ a ∈ l, f a = .ok () := by
  induction l with
  | nil => simp [forEach]
  | cons a as ih =>
    simp only [forEach, List.mem_cons, forall_eq_or_imp]
    cases h : f a with
    | error e => simp
    | ok u => simp [ih]

end TreeSchema.Checked
