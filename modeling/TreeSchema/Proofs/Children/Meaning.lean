import TreeSchema.Proofs.Children.Plan
import TreeSchema.Proofs.Children.Text
import TreeSchema.Proofs.Schema.Loaded
import TreeSchema.Proofs.Source.Meaning

/-!
# What the accessor for children gives

On a node whose fields have the shapes of the plan's access paths, the text of the plan runs
without a fault and pushes the nodes at the ends of the paths.
-/

namespace TreeSchema

open Source

section

variable {ν : Type}

namespace Access

/-- The value has the shape that the path describes. -/
def Fits : Access → Value ν → Prop
  | [], .node _ => True
  | .box :: a, .box v => Fits a v
  | .sequence :: a, .list vs => ∀ v ∈ vs, Fits a v
  | .separated :: a, .record fields =>
    ∃ vs, fields.lookup "inner" = some (.list vs) ∧ ∀ v ∈ vs, Fits a v
  | .optional :: a, .option content => ∀ v ∈ content, Fits a v
  | _, _ => False

/-- The nodes that the path leads to, in order. -/
def leaves : Access → Value ν → List ν
  | [], .node n => [n]
  | .box :: a, .box v => leaves a v
  | .sequence :: a, .list vs => vs.flatMap (leaves a)
  | .separated :: a, .record fields =>
    match fields.lookup "inner" with
    | some (.list vs) => vs.flatMap (leaves a)
    | _ => []
  | .optional :: a, .option (some v) => leaves a v
  | _, _ => []

end Access

namespace Walk

/-- The field of the walk has the shape of its path. -/
def Fits (fields : List (String × Value ν)) (w : Walk) : Prop :=
  ∃ v, fields.lookup w.field = some v ∧ Access.Fits w.access v

def leaves (fields : List (String × Value ν)) (w : Walk) : List ν :=
  ((fields.lookup w.field).map (Access.leaves w.access)).getD []

end Walk

namespace ChildrenPlan

/-- The value is a node of the given type, and all fields that are walked have the shapes of their
paths. -/
def Fits (type : String) : ChildrenPlan → Value ν → Prop
  | none, _ => True
  | fields walks, .record fs => ∀ w ∈ walks, w.Fits fs
  | variants arms, .variant t name form fs => t = type ∧
      ∃ arm, (arms.find? fun a => a.variant = name) = some arm ∧ arm.form = form ∧
        ∀ w ∈ arm.body.walks, w.Fits fs
  | _, _ => False

/-- The nodes of all fields that are walked, walk by walk. -/
def leaves : ChildrenPlan → Value ν → List ν
  | fields walks, .record fs => walks.flatMap (Walk.leaves fs)
  | variants arms, .variant _ name _ fs =>
    ((arms.find? fun a => a.variant = name).map fun arm =>
      arm.body.walks.flatMap (Walk.leaves fs)).getD []
  | _, _ => []

/-- No two fields of an arm are bound to the same variable. -/
def LocalsDistinct : ChildrenPlan → Prop
  | variants arms => ∀ arm ∈ arms, ∀ walks, arm.body = .fields walks → (walks.map Walk.var).Nodup
  | _ => True

end ChildrenPlan

/-! ### Operands -/

namespace Operand

/-- The operand is a place with the value, or a variable with a reference to it. -/
def Denotes (env : Env ν) (v : Value ν) : Operand → Prop
  | place p => p.expr.eval env = some v
  | reference x => env.lookup x = some (.ref v)

variable {env : Env ν} {v : Value ν} {o : Operand}

theorem Denotes.eval_refExpr (h : o.Denotes env v) : o.refExpr.eval env = some (.ref v) := by
  cases o with
  | place p => simpa [refExpr, Expr.eval, Denotes] using h
  | reference x => exact h

/-- A method or a field finds the value behind at most one reference. -/
theorem Denotes.eval_expr (h : o.Denotes env v) :
    ∃ u, o.expr.eval env = some u ∧ u.behind = v.behind := by
  cases o with
  | place p => exact ⟨v, h, rfl⟩
  | reference x => exact ⟨.ref v, h, rfl⟩

/-- One star more for a place, two for a reference. -/
theorem Denotes.content (h : o.Denotes env (.box v)) : o.content.Denotes env v := by
  cases o with
  | place p =>
    have hp : p.expr.eval env = some (.box v) := h
    simp [Operand.content, Denotes, Place.expr, Expr.eval, hp, Value.content?]
  | reference x =>
    have hx : env.lookup x = some (.ref (.box v)) := h
    simp [Operand.content, Denotes, Place.expr, Expr.eval, hx, Value.content?]

theorem Denotes.eval_iter {vs : List (Value ν)} (h : o.Denotes env (.list vs)) :
    (Expr.method o.expr "iter").eval env = some (.iter (vs.map .ref)) := by
  obtain ⟨u, hu, hb⟩ := h.eval_expr
  simp [Expr.eval, hu, Value.iter?, hb, Value.behind]

theorem Denotes.eval_inner_iter {fields : List (String × Value ν)} {vs : List (Value ν)}
    (h : o.Denotes env (.record fields)) (hi : fields.lookup "inner" = some (.list vs)) :
    (Expr.method (.field o.expr "inner") "iter").eval env = some (.iter (vs.map .ref)) := by
  obtain ⟨u, hu, hb⟩ := h.eval_expr
  simp [Expr.eval, hu, Value.field?, hb, Value.behind, hi, Value.iter?]

end Operand

/-! ### Walks -/

namespace Access

theorem itemName_ne_children (depth : ℕ) : itemName depth ≠ "children" := by
  intro h
  have hu := underscore_mem_itemName depth
  rw [h] at hu
  exact absurd hu (by decide)

/-- Following a path pushes its leaves. The variable that a loop or test binds is the operand of
what is inside, so it may hide any variable but `children`. -/
theorem run_stmt {a : Access} {v : Value ν} (hf : Access.Fits a v) {o : Operand} {env : Env ν}
    (ho : o.Denotes env v) (hc : env.lookup "children" = some .children) (depth : ℕ) :
    (a.stmt o depth).run env = some (a.leaves v) := by
  induction a generalizing v o env depth with
  | nil =>
    cases v with
    | node n =>
      have hview : (Expr.call Fixed.viewName "from" o.refExpr).eval env = some (.view n) := by
        simp [Expr.eval, ho.eval_refExpr, Value.view?]
      have hlist : (Expr.var "children").eval env = some .children := hc
      simp [stmt, Stmt.run, Expr.pushed, hlist, hview, Access.leaves]
    | _ => exact hf.elim
  | cons w a ih =>
    have hinner : ∀ u, Access.Fits a u →
        (stmt a (.reference (itemName depth)) (depth + 1)).run ((itemName depth, .ref u) :: env) =
          some (Access.leaves a u) := by
      intro u hu
      refine ih hu (by simp [Operand.Denotes]) ?_ (depth + 1)
      rwa [List.lookup_cons, beq_false_of_ne (itemName_ne_children depth).symm]
    cases w with
    | box =>
      cases v with
      | box u => exact ih hf ho.content hc depth
      | _ => exact hf.elim
    | sequence =>
      cases v with
      | list vs => exact run_forIn ho.eval_iter fun u hu => hinner u (hf u hu)
      | _ => exact hf.elim
    | separated =>
      cases v with
      | record fields =>
        obtain ⟨vs, hvs, hfit⟩ := hf
        simp only [Access.leaves, hvs]
        exact run_forIn (ho.eval_inner_iter hvs) fun u hu => hinner u (hfit u hu)
      | _ => exact hf.elim
    | optional =>
      cases v with
      | option content =>
        cases content with
        | none => simp [stmt, Stmt.run, ho.eval_refExpr, Access.leaves]
        | some u =>
          have hbody := hinner u (hf u rfl)
          simp [stmt, Stmt.run, ho.eval_refExpr, runAll_singleton, hbody, Access.leaves]
      | _ => exact hf.elim

end Access

theorem Walk.run_nodeStmt {w : Walk} {fs : List (String × Value ν)} (h : w.Fits fs) :
    w.nodeStmt.run [("node", .ref (.record fs)), ("children", .children)] =
      some (w.leaves fs) := by
  obtain ⟨v, hv, hf⟩ := h
  rw [Walk.leaves, hv]
  refine Access.run_stmt hf ?_ rfl 0
  simp [Operand.Denotes, Place.expr, Expr.eval, Value.field?, Value.behind, hv]

/-! ### Arms -/

/-- The variables of walks over the fields of a variant. -/
def locals (fs : List (String × Value ν)) (walks : List Walk) : Env ν :=
  walks.filterMap fun w => bind? fs (w.field, w.var)

theorem lookup_locals_of_notMem {fs : List (String × Value ν)} {walks : List Walk} {x : String}
    (h : x ∉ walks.map Walk.var) (env : Env ν) :
    (locals fs walks ++ env).lookup x = env.lookup x := by
  induction walks with
  | nil => rfl
  | cons w walks ih =>
    rw [List.map_cons, List.mem_cons, not_or] at h
    cases hv : fs.lookup w.field with
    | none => simpa [locals, bind?, hv] using ih h.2
    | some v =>
      have hx : (x == w.var) = false := beq_false_of_ne h.1
      simpa [locals, bind?, hv, List.lookup_cons, hx] using ih h.2

theorem lookup_locals {fs : List (String × Value ν)} {walks : List Walk}
    (hn : (walks.map Walk.var).Nodup) {w : Walk} (hw : w ∈ walks) {v : Value ν}
    (hv : fs.lookup w.field = some v) (env : Env ν) :
    (locals fs walks ++ env).lookup w.var = some (.ref v) := by
  induction walks with
  | nil => cases hw
  | cons first walks ih =>
    rw [List.map_cons, List.nodup_cons] at hn
    rcases List.mem_cons.mp hw with rfl | hw
    · simp [locals, bind?, hv]
    · have hne : (w.var == first.var) = false := by
        refine beq_false_of_ne fun h => hn.1 ?_
        exact List.mem_map.mpr ⟨w, hw, h⟩
      cases hf : fs.lookup first.field with
      | none => simpa [locals, bind?, hf] using ih hn.2 hw
      | some u => simpa [locals, bind?, hf, List.lookup_cons, hne] using ih hn.2 hw

namespace VariantWalk

/-- The pattern of the arm is well formed, and leaves `children` alone. -/
structure Binds (v : VariantWalk) : Prop where
  fields : (v.body.walks.map Walk.field).Nodup
  vars : (v.body.walks.map Walk.var).Nodup
  children : "children" ∉ v.body.walks.map Walk.var

theorem isValid_clause {v : VariantWalk} (h : v.Binds) (type : String) :
    (v.clause type).IsValid type := by
  refine ⟨rfl, ?_, ?_⟩
  · simpa [clause, Function.comp_def] using h.fields
  · simpa [clause, Function.comp_def] using h.vars

theorem run_clause {v : VariantWalk} (h : v.Binds) {fs : List (String × Value ν)}
    (hf : ∀ w ∈ v.body.walks, w.Fits fs) (env : Env ν)
    (hc : env.lookup "children" = some .children) (type : String) :
    ((v.clause type).bindings.mapM (bind? fs)).bind
      (fun vars => runAll (vars ++ env) (v.clause type).body) =
        some (v.body.walks.flatMap (Walk.leaves fs)) := by
  have hvars : (v.clause type).bindings.mapM (bind? fs) = some (locals fs v.body.walks) := by
    rw [mapM_eq_filterMap, clause, List.filterMap_map]
    · rfl
    · intro b hb
      obtain ⟨w, hw, rfl⟩ := List.mem_map.mp hb
      obtain ⟨u, hu, -⟩ := hf w hw
      simp [bind?, hu]
  rw [hvars, Option.bind_some, clause]
  refine runAll_map fun w hw => ?_
  obtain ⟨u, hu, hfit⟩ := hf w hw
  rw [Walk.leaves, hu]
  refine Access.run_stmt (o := .reference w.var) hfit (lookup_locals h.vars hw hu env) ?_ 0
  rw [lookup_locals_of_notMem h.children, hc]

end VariantWalk

/-! ### Plans -/

namespace ChildrenPlan

theorem run_sourceBody {type : String} {plan : ChildrenPlan} {v : Value ν}
    (hb : ∀ arms, plan = variants arms → ∀ arm ∈ arms, arm.Binds) (hf : plan.Fits type v) :
    (plan.sourceBody type).run v = some (plan.leaves v) := by
  cases plan with
  | none => rfl
  | fields walks =>
    cases v with
    | record fs =>
      rw [sourceBody, Body.run]
      exact runAll_map fun w hw => Walk.run_nodeStmt (hf w hw)
    | _ => exact hf.elim
  | variants arms =>
    cases v with
    | variant t name form fs =>
      obtain ⟨rfl, arm, hfind, rfl, hfit⟩ := hf
      have hbinds := hb arms rfl
      have hvalid : ∀ c ∈ arms.map fun a => a.clause t, c.IsValid t := by
        intro c hc
        obtain ⟨a, ha, rfl⟩ := List.mem_map.mp hc
        exact VariantWalk.isValid_clause (hbinds a ha) t
      have hclause : ((arms.map fun a => a.clause t).find? fun c => c.variant = name) =
          some (arm.clause t) := by
        rw [List.find?_map]
        exact congrArg _ hfind
      have hrun := VariantWalk.run_clause (hbinds arm (List.mem_of_find?_eq_some hfind)) hfit
        [("node", .ref (.variant t name arm.form fs)), ("children", .children)] rfl t
      change runClauses _ _ (.ref (.variant t name arm.form fs)) = _
      rw [runClauses, if_pos hvalid, hclause, Option.bind_some, leaves, hfind]
      exact (if_pos rfl).trans hrun
    | _ => exact hf.elim

end ChildrenPlan

end

/-! ### Plans of entries -/

namespace ChildrenPlan

theorem isIdent_bindingOf {f : String} (h : Name.isIdent f = true) :
    Name.isIdent (bindingOf f) = true := by
  have hown : ∀ x ∈ ownVariables, Name.isIdent (x ++ "_") = true := by decide
  by_cases hf : f ∈ ownVariables
  · rw [bindingOf_of_mem hf]
    exact hown f hf
  · rwa [bindingOf_of_notMem hf]

end ChildrenPlan

variable {P : TypeExpr → Access → Prop}

theorem WalksOver.isIdent {fields : Fields} {walks : List Walk} (h : WalksOver fields P walks)
    (hn : FieldsNamed fields) {w : Walk} (hw : w ∈ walks) : Name.isIdent w.field = true := by
  obtain ⟨t, ht, -⟩ := h w hw
  exact hn _ (Fields.mem_of_lookup ht)

namespace VariantWalk

variable {variants : List (String × Variant)} {arm : VariantWalk}

theorem Over.named (h : arm.Over variants P) (hn : VariantsNamed variants) : arm.Named := by
  obtain ⟨name, form, body⟩ := arm
  cases body with
  | empty =>
    obtain ⟨v, hv, -⟩ := h
    exact ⟨(hn _ hv).1, trivial⟩
  | payload a =>
    obtain ⟨hform, t, hv, -⟩ := h
    exact ⟨(hn _ hv).1, hform⟩
  | fields walks =>
    obtain ⟨hform, hne, hbind, fields, hasId, hv, hover⟩ := h
    refine ⟨(hn _ hv).1, hform, hne, fun w hw => ?_⟩
    have hfield := hover.isIdent (hn _ hv).2 hw
    refine ⟨hfield, ?_⟩
    rw [Walk.var, hbind w hw]
    exact ChildrenPlan.isIdent_bindingOf hfield

theorem Over.binds (h : arm.Over variants P)
    (hd : ∀ walks, arm.body = .fields walks → (walks.map Walk.var).Nodup) : arm.Binds := by
  obtain ⟨name, form, body⟩ := arm
  cases body with
  | empty => exact ⟨List.nodup_nil, List.nodup_nil, List.not_mem_nil⟩
  | payload a =>
    exact ⟨List.nodup_singleton _, List.nodup_singleton _, by simp [ArmBody.walks, Walk.var]⟩
  | fields walks =>
    obtain ⟨-, -, hbind, -⟩ := h
    have hvar : ∀ w ∈ walks, w.var = ChildrenPlan.bindingOf w.field := by
      intro w hw
      rw [Walk.var, hbind w hw]
      rfl
    have hvars : walks.map Walk.var = (walks.map Walk.field).map ChildrenPlan.bindingOf := by
      rw [List.map_map]
      exact List.map_congr_left hvar
    have hnodup := hd walks rfl
    refine ⟨?_, hnodup, ?_⟩
    · rw [hvars] at hnodup
      exact hnodup.of_map
    · intro hmem
      obtain ⟨w, hw, hwc⟩ := List.mem_map.mp hmem
      rw [hvar w hw] at hwc
      exact ChildrenPlan.bindingOf_notMem_ownVariables w.field (by rw [hwc]; decide)

end VariantWalk

namespace ChildrenPlan

variable {d : Draft} {s : Schema} {e : Entry} {plan : ChildrenPlan}

theorem Over.named (h : plan.Over e P) (hl : e.Loaded) : plan.Named := by
  have hshape := hl.named
  cases plan with
  | none => trivial
  | fields walks =>
    obtain ⟨fields, hs, hover⟩ := h
    rw [hs] at hshape
    exact fun w hw => hover.isIdent hshape hw
  | variants arms =>
    obtain ⟨variants, hs, hover⟩ := h
    rw [hs] at hshape
    exact fun arm harm => (hover arm harm).named hshape

/-- The text that is written for the children of an entry of a loaded schema can be read, and what
it says is right: on every node whose walked fields have the shapes of their paths, each step is
well typed, and the nodes at the ends of the paths are pushed, walk after walk and element after
element. -/
theorem text_pushes_leaves (hs : Schema.ofDraft d = .ok s) (he : e ∈ s.entries)
    (hp : ofEntry s e = .ok plan) (hd : plan.LocalsDistinct) :
    ∃ b, Source.read (Code.text (plan.code e.displayName)) = some b ∧
      ∀ (ν : Type) (v : Source.Value ν), plan.Fits e.displayName v →
        b.run v = some (plan.leaves v) := by
  have hl : e.Loaded := Schema.loaded_ofDraft hs e he
  have hover : plan.Over e fun _ _ => True := over_ofEntry (fun _ _ _ _ _ => trivial) hp
  refine ⟨plan.sourceBody e.displayName, read_text hl.display (hover.named hl), ?_⟩
  intro ν v hf
  refine run_sourceBody ?_ hf
  rintro arms rfl arm harm
  obtain ⟨variants, -, harms⟩ := hover
  exact (harms arm harm).binds (hd arm harm)

end ChildrenPlan

namespace Branches

/-! A variant with a field called `children` and one called like the variable of a loop. -/

def draft : Draft where
  entries := [
    ("Leaf", .definition []),
    ("Branch", .definition [("as", .text "Enum"),
      ("Many", .mapping [("children", .text "Vec<Option<Box<Leaf>>>"),
        ("child_0", .text "CommaSeparated<Box<Leaf>>")]),
      ("Bare", .null),
      ("children", .list ["self.children", "self.child_0"])])]
  nodup := by decide

def leaf : Entry := { name := "Leaf", displayName := "Leaf", shape := .product [] }

def branch : Entry :=
  { name := "Branch", displayName := "Branch",
    shape := .sum [
      ("Many", .struct
        [("children", .wrap .sequence (.wrap .optional (.wrap .box (.named "Leaf")))),
        ("child_0", .wrap .separated (.wrap .box (.named "Leaf")))] true),
      ("Bare", .unit)],
    children := some (.refs [⟨"children", true, .required⟩, ⟨"child_0", true, .required⟩]) }

def schema : Schema := ⟨[leaf, branch], by decide⟩

def walks : List Walk :=
  [⟨"children", some "children_", [.sequence, .optional, .box]⟩,
    ⟨"child_0", some "child_0", [.separated, .box]⟩]

def plan : ChildrenPlan := .variants [⟨"Many", .struct, .fields walks⟩, ⟨"Bare", .unit, .empty⟩]

def many : Source.Value ℕ :=
  .variant "Branch" "Many" .struct [
    ("children", .list [.option (some (.box (.node 1))), .option none]),
    ("child_0", .record [("inner", .list [.box (.node 2), .box (.node 3)])])]

theorem many_pushes_leaves :
    Schema.ofDraft draft = .ok schema ∧ ChildrenPlan.ofEntry schema branch = .ok plan ∧
      ∃ b, Source.read (Code.text (plan.code "Branch")) = some b ∧ b.run many = some [1, 2, 3] := by
  have hs : Schema.ofDraft draft = .ok schema := Schema.ofDraft_eq_ok (by decide +kernel)
  have hp : ChildrenPlan.ofEntry schema branch = .ok plan := by decide +kernel
  have hd : plan.LocalsDistinct := by
    simp [plan, ChildrenPlan.LocalsDistinct, walks, Walk.var]
  have hfit : plan.Fits "Branch" many := by
    refine ⟨rfl, ⟨"Many", .struct, .fields walks⟩, by decide, rfl, ?_⟩
    simp [ArmBody.walks, walks, Walk.Fits, Access.Fits, List.lookup_cons]
  obtain ⟨b, hread, hrun⟩ := ChildrenPlan.text_pushes_leaves hs (e := branch) (by decide) hp hd
  exact ⟨hs, hp, b, hread, hrun ℕ many hfit⟩

end Branches

end TreeSchema
