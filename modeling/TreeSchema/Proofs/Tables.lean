import TreeSchema.Proofs.Accessors
import TreeSchema.Proofs.Gates
import TreeSchema.Proofs.Source.Table

/-!
# The tables of the view

The view says several times what its kinds are: in the cases of the union, in the methods that
narrow, in the arms of three matches and in the conversions. These tables are read from the lines of
the view, with and without deciding the features; each of them has one item for each kind that takes
part, in the order of the schema.
-/

namespace TreeSchema

open Checked Source Piece

/-- The body of a method, and the arms of the match in it. -/
structure Method where
  /-- The items, without the lines of the match. -/
  body : List Listed
  arms : Option (List Listed)
  deriving DecidableEq

/-- What the view lists. -/
structure Tables where
  /-- The items at the left margin, without the lines of the union and of the methods. -/
  top : List Listed
  /-- The cases of the union. -/
  cases : List Listed
  /-- The methods of the view, without the lines of those that match. -/
  methods : List Listed
  name : Method
  children : Method
  pointer : Method
  deriving DecidableEq

namespace Tables

/-! ### Reading tables -/

def union : List Char := Writer.row 0 "pub enum NodeKind<'a> \x7b"

def methodsOfView : List Char := Writer.row 0 "impl<'a> Node<'a> \x7b"

def nameMethod : List Char := Writer.row 1 "pub fn name(&self) -> &'static str \x7b"

def childrenMethod : List Char := Writer.row 1 "pub fn children(&self) -> Vec<Node<'a>> \x7b"

def pointerMethod : List Char := Writer.row 1 "pub fn as_ptr(&self) -> NonNull<()> \x7b"

def matchOnKind : List Char := Writer.row 2 "match self.kind \x7b"

/-- The items in the first block that a line opens. -/
def block (text : List Char) (l : List Listed) : Option (List Listed) :=
  (l.find? fun x => x.text == text).map fun x => items x.body

/-- Some items, without the lines in those blocks that are read on their own. -/
def outline (own : List (List Char)) (l : List Listed) : List Listed :=
  l.map fun x => if x.text ∈ own then { x with body := [] } else x

def method (text : List Char) (l : List Listed) : Option Method :=
  (block text l).map fun body => ⟨outline [matchOnKind] body, block matchOnKind body⟩

def read (rows : List (List Char)) : Option Tables := do
  let top := items rows
  let cases ← block union top
  let methods ← block methodsOfView top
  let name ← method nameMethod methods
  let children ← method childrenMethod methods
  let pointer ← method pointerMethod methods
  return ⟨outline [union, methodsOfView] top, cases,
    outline [nameMethod, childrenMethod, pointerMethod] methods, name, children, pointer⟩

/-! ### The items of a kind -/

section Items

variable (s : Schema) (p : Positions) (gate : Option Gate) (e : Entry)

/-- The case of a kind in the union; the other items of the kind follow. -/
def caseItem : Listed := gatedItem 1 gate (e.displayName ++ "(&'a " ++ e.displayName ++ "),") []

def asItem : Listed :=
  gatedItem 1 gate ("pub fn as_" ++ Name.snakeCase e.displayName ++ "(&self) -> Option<&'a " ++
      e.displayName ++ "> \x7b")
    [Writer.row 2 ("if let NodeKind::" ++ e.displayName ++ "(node) = self.kind \x7b"),
      Writer.row 3 "Some(node)", Writer.row 2 "\x7d else \x7b", Writer.row 3 "None",
      Writer.row 2 "\x7d"]

def isItem : Listed :=
  gatedItem 1 gate ("pub fn is_" ++ Name.snakeCase e.displayName ++ "(&self) -> bool \x7b")
    [Writer.row 2 ("matches!(self.kind, NodeKind::" ++ e.displayName ++ "(_))")]

def nameItem : Listed :=
  gatedItem 3 gate ("NodeKind::" ++ e.displayName ++ "(_) => \"" ++ e.displayName ++ "\",") []

/-- Its body is the code of the entry's plan. -/
def childrenItem : Listed :=
  gatedItem 3 gate
    ("NodeKind::" ++ e.displayName ++
      if e.children.isNone then "(_) => \x7b\x7d" else "(node) => \x7b")
    (((ChildrenPlan.ofEntry s e).toOption.map fun plan =>
      Code.rows 4 (plan.code e.displayName)).getD [])

def pointerItem : Listed :=
  gatedItem 3 gate ("NodeKind::" ++ e.displayName ++ "(node) => NonNull::from(node).cast(),") []

def conversionItem : Listed :=
  gatedItem 0 gate ("impl<'a> From<&'a " ++ e.displayName ++ "> for Node<'a> \x7b")
    [Writer.row 1 ("fn from(node: &'a " ++ e.displayName ++ ") -> Self \x7b"),
      Writer.row 2 ("Node::new(node.id(), NodeKind::" ++ e.displayName ++ "(node), " ++
        (if p.contains e.name then "node.span()" else "Span::default()") ++ ")"),
      Writer.row 1 "\x7d"]

end Items

/-! ### The tables of some kinds -/

/-- A line that is always there. -/
def fixed (depth : ℕ) (text : String) (body : List (List Char) := []) : Listed :=
  gatedItem depth none text body

/-- A match on the kind of a node. -/
def matching (arms : List (List Char)) : List Listed := [fixed 2 "match self.kind \x7b" arms]

/-- The body of the method for children; without any children, there is nothing to match. -/
def walking (walked : Bool) (arms : List (List Char)) : List Listed :=
  if walked then
    fixed 2 "let mut children = Vec::new();" :: matching arms ++ [fixed 2 "children"]
  else [fixed 2 "Vec::new()"]

/-- The items at the left margin, with the conversions after them. -/
def topItems (cases methods : List (List Char)) (conversions : List Listed) : List Listed :=
  [fixed 0 "#[derive(Debug, PartialEq, Clone, Copy)]",
    fixed 0 "pub enum NodeKind<'a> \x7b" cases,
    fixed 0 "#[derive(Debug, PartialEq, Clone, Copy)]",
    fixed 0 "pub struct Node<'a> \x7b" [Writer.row 1 "pub id: NodeId,",
      Writer.row 1 "pub kind: NodeKind<'a>,", Writer.row 1 "pub span: Span,"],
    fixed 0 "impl<'a> Node<'a> \x7b" methods] ++ conversions

/-- The methods of the view, around those that narrow. -/
def methodItems (names children pointers : List (List Char)) (narrowing : List Listed) :
    List Listed :=
  fixed 1 "pub fn new(id: NodeId, kind: NodeKind<'a>, span: Span) -> Self \x7b"
      [Writer.row 2 "Self \x7b id, kind, span \x7d"] :: narrowing ++
    [fixed 1 "pub fn name(&self) -> &'static str \x7b" names,
      fixed 1 "pub fn children(&self) -> Vec<Node<'a>> \x7b" children,
      fixed 1 "pub fn as_ptr(&self) -> NonNull<()> \x7b" pointers]

/-- The tables that list some kinds, each under a gate. -/
def ofKinds (s : Schema) (p : Positions) (gate : Entry → Option Gate) (walked : Bool)
    (kinds : List Entry) : Tables where
  top := topItems [] [] (kinds.map fun e => conversionItem p (gate e) e)
  cases := kinds.map fun e => caseItem (gate e) e
  methods := methodItems [] [] [] (kinds.flatMap fun e => [asItem (gate e) e, isItem (gate e) e])
  name := ⟨matching [], some (kinds.map fun e => nameItem (gate e) e)⟩
  children :=
    ⟨walking walked [],
      if walked then some (kinds.map fun e => childrenItem s (gate e) e) else none⟩
  pointer := ⟨matching [], some (kinds.map fun e => pointerItem (gate e) e)⟩

end Tables

/-! ### Items of cases -/

theorem ChildrenPlan.isNone_of_ofEntry {s : Schema} {e : Entry} {plan : ChildrenPlan}
    (h : ofEntry s e = .ok plan) : plan.isNone = e.children.isNone := by
  unfold ofEntry at h
  split at h
  · next hnone =>
    cases h
    rw [hnone]
    rfl
  · next spec hspec =>
    rw [hspec]
    split at h
    · obtain ⟨walks, -, rfl⟩ := map_eq_ok_iff.mp h
      rfl
    · obtain ⟨walks, -, rfl⟩ := map_eq_ok_iff.mp h
      rfl
    · obtain ⟨walks, -, rfl⟩ := map_eq_ok_iff.mp h
      rfl
    · cases h
    · cases h

namespace ViewCase

/-- The case of its entry. -/
abbrev Planned (s : Schema) (p : Positions) (c : ViewCase) : Prop := ofEntry s p c.entry = .ok c

namespace Planned

variable {s : Schema} {p : Positions} {c : ViewCase}

theorem accessor (h : c.Planned s p) : c.accessor = Name.snakeCase c.entry.displayName := by
  obtain ⟨plan, -, heq⟩ := map_eq_ok_iff.mp h
  rw [← heq]

theorem positioned (h : c.Planned s p) : c.positioned = p.contains c.entry.name := by
  obtain ⟨plan, -, heq⟩ := map_eq_ok_iff.mp h
  rw [← heq]

theorem children (h : c.Planned s p) : ChildrenPlan.ofEntry s c.entry = .ok c.children := by
  obtain ⟨plan, hplan, heq⟩ := map_eq_ok_iff.mp h
  rw [hplan, ← heq]

end Planned

/-- Code for each case that is read as some items, and after the features are decided as those under
what is left of the gate, or as nothing. -/
structure Lists (s : Schema) (p : Positions) (depth : ℕ) (f : ViewCase → List Piece)
    (g : Option Gate → Entry → List Listed) : Prop where
  written : ∀ c : ViewCase, c.Planned s p → ReadsAs depth (f c) (g c.entry.gate c.entry)
  decided : ∀ v (c : ViewCase), c.Planned s p → ReadsAs depth (allDecided v (f c))
    (if Gate.keeps v c.entry.gate then g (Gate.unread c.entry.gate) c.entry else [])

variable {s : Schema} {p : Positions} {depth : ℕ} {f f' : ViewCase → List Piece}
  {g g' : Option Gate → Entry → List Listed}

theorem Lists.append (h : Lists s p depth f g) (h' : Lists s p depth f' g') :
    Lists s p depth (fun c => f c ++ f' c) fun gate e => g gate e ++ g' gate e where
  written c hc := (h.written c hc).append (h'.written c hc)
  decided v c hc := by
    have hboth := (h.decided v c hc).append (h'.decided v c hc)
    rw [allDecided_append]
    by_cases hon : Gate.keeps v c.entry.gate = true <;> simpa [hon] using hboth

theorem lists_blank : Lists s p depth (fun _ => [.blank]) fun _ _ => [] where
  written _ _ := (readsAs_nil depth).blank
  decided v c _ := by simpa [allDecided, Piece.decided] using (readsAs_nil depth).blank

theorem lists_item {piece : ViewCase → Piece} {text : Entry → String}
    {body : Entry → List (List Char)} (hbare : ∀ c, (piece c).Bare)
    (h : ∀ c : ViewCase, c.Planned s p →
      IsItem depth (piece c) (Writer.row depth (text c.entry)) (body c.entry)) :
    Lists s p depth (fun c => [c.item (piece c)])
      fun gate e => [gatedItem depth gate (text e) (body e)] where
  written c hc := (h c hc).guarded c.entry.gate
  decided v c hc := by
    simp only [item, allDecided, Piece.decided, List.append_nil, (hbare c).decided_eq v]
    by_cases hon : Gate.keeps v c.entry.gate = true
    · rw [if_pos hon, if_pos hon]
      exact (h c hc).guarded _
    · rw [if_neg hon, if_neg hon]
      exact readsAs_nil depth

variable {cases : List ViewCase}

theorem Lists.written_flatMap (h : Lists s p depth f g) (hc : ∀ c ∈ cases, c.Planned s p) :
    ReadsAs depth (cases.flatMap f) ((cases.map entry).flatMap fun e => g e.gate e) := by
  induction cases with
  | nil => exact readsAs_nil depth
  | cons c cases ih =>
    obtain ⟨hfirst, hrest⟩ := List.forall_mem_cons.mp hc
    exact (h.written c hfirst).append (ih hrest)

theorem Lists.decided_flatMap (h : Lists s p depth f g) (v : Gate.Valuation)
    (hc : ∀ c ∈ cases, c.Planned s p) : ReadsAs depth (allDecided v (cases.flatMap f))
      (((cases.map entry).filter fun e => Gate.keeps v e.gate).flatMap
        fun e => g (Gate.unread e.gate) e) := by
  induction cases with
  | nil => exact readsAs_nil depth
  | cons c cases ih =>
    obtain ⟨hfirst, hrest⟩ := List.forall_mem_cons.mp hc
    have hboth := (h.decided v c hfirst).append (ih hrest)
    rw [List.flatMap_cons, allDecided_append]
    by_cases hon : Gate.keeps v c.entry.gate = true <;> simpa [hon] using hboth

theorem path_eq (c : ViewCase) : c.path = "NodeKind::" ++ c.entry.displayName := rfl

variable (s p)

theorem lists_unionPieces :
    Lists s p 1 unionPieces fun gate e => [Tables.caseItem gate e] :=
  lists_item (fun _ => free_append (by decide)) fun _ _ => isItem_append (by decide)

theorem lists_namePieces :
    Lists s p 3 namePieces fun gate e => [Tables.nameItem gate e] :=
  lists_item (fun _ => free_append (by decide)) fun _ _ => isItem_append (by decide)

theorem lists_pointerPieces :
    Lists s p 3 pointerPieces fun gate e => [Tables.pointerItem gate e] :=
  lists_item (fun _ => free_append (by decide)) fun _ _ => isItem_append (by decide)

theorem lists_narrowingPieces : Lists s p 1 narrowingPieces
    fun gate e => [Tables.asItem gate e, Tables.isItem gate e] := by
  have has : Lists s p 1 (fun c => [c.item c.asPiece]) fun gate e => [Tables.asItem gate e] := by
    refine lists_item bare_asPiece fun c hc => ?_
    rw [← hc.accessor]
    refine isItem_block (String.toList_inj.mp ?_) (by simp [Starts]) rfl
    simp [asMethod, type]
  have his : Lists s p 1 (fun c => [c.item c.isPiece]) fun gate e => [Tables.isItem gate e] := by
    refine lists_item bare_isPiece fun c hc => ?_
    rw [← hc.accessor]
    refine isItem_block (String.toList_inj.mp ?_) (by simp [Starts]) rfl
    simp [isMethod]
  exact (has.append lists_blank).append (his.append lists_blank)

theorem lists_conversionPieces :
    Lists s p 0 conversionPieces fun gate e => [Tables.conversionItem p gate e] := by
  have himpl : Lists s p 0 (fun c => [c.item c.conversionPiece])
      fun gate e => [Tables.conversionItem p gate e] := by
    refine lists_item bare_conversionPiece fun c hc => ?_
    rw [← hc.positioned]
    have hheader : "fn from(node: &'a " ++ c.type ++ ") -> Self" ++ " \x7b" =
        "fn from(node: &'a " ++ c.type ++ ") -> Self \x7b" := String.toList_inj.mp (by simp)
    have hcall : Fixed.viewName ++ "::new(node.id(), " ++ c.path ++ "(node), " =
        "Node::new(node.id(), NodeKind::" ++ c.type ++ "(node), " :=
      String.toList_inj.mp (by simp [path_eq, Fixed.viewName, type])
    refine isItem_block (String.toList_inj.mp ?_) (by simp [Starts]) ?_
    · simp [type, Fixed.viewName]
    · simp only [braces, rows, allRows_cons, allRows_nil, hheader, hcall]
      rfl
  exact himpl.append lists_blank

theorem lists_childrenPieces :
    Lists s p 3 childrenPieces fun gate e => [Tables.childrenItem s gate e] := by
  refine lists_item bare_childrenPiece fun c hc => ?_
  rw [hc.children, ← ChildrenPlan.isNone_of_ofEntry hc.children, childrenPiece]
  by_cases hnone : c.children.isNone = true
  · have hplan : c.children = .none := by
      cases hp : c.children with
      | none => rfl
      | _ => rw [hp] at hnone; cases hnone
    rw [if_pos hnone, if_pos hnone, hplan]
    exact isItem_append (by decide)
  · rw [if_neg hnone, if_neg hnone]
    refine isItem_block (String.toList_inj.mp ?_) ?_ ?_
    · simp [path_eq]
    · simp [Starts, path_eq]
    · simp only [Except.toOption, Option.map_some, Option.getD_some, ChildrenPlan.code_eq,
        rows_allRequests]
      rfl

end ViewCase

/-! ### The view around its tables -/

theorem ViewPlan.allDecided_frame (v : Gate.Valuation)
    (cases narrowing names children pointers conversions : List Piece) :
    allDecided v (frame cases narrowing names children pointers conversions) =
      frame (allDecided v cases) (allDecided v narrowing) (allDecided v names)
        (allDecided v children) (allDecided v pointers) (allDecided v conversions) := by
  simp only [frame, methodPieces, allDecided_append, AllBare.allDecided_eq v _ allBare_structPieces]
  simp only [allDecided, decided, Piece.braces, allDecided_append, List.append_nil,
    List.singleton_append, AllBare.allDecided_eq v _ allBare_newPieces]

theorem ViewPlan.allDecided_childrenBody (v : Gate.Valuation) (walked : Bool)
    (arms : List Piece) :
    allDecided v (childrenBody walked arms) = childrenBody walked (allDecided v arms) := by
  cases walked <;> rfl

namespace Tables

variable {text : List Char} {own : List (List Char)} {x : Listed} {l l' : List Listed}

theorem block_fixed_self (depth : ℕ) (header : String) (body : List (List Char))
    (l : List Listed) :
    block (Writer.row depth header) (fixed depth header body :: l) = some (items body) := by
  simp [block, fixed, gatedItem]

theorem block_fixed_of_ne {depth : ℕ} {header : String} (h : Writer.row depth header ≠ text)
    (body : List (List Char)) (l : List Listed) :
    block text (fixed depth header body :: l) = block text l := by
  simp [block, fixed, gatedItem, h]

theorem forall_fixed_cons {depth : ℕ} {header : String} {body : List (List Char)} :
    (∀ x ∈ fixed depth header body :: l, x.text ≠ text) ↔
      Writer.row depth header ≠ text ∧ ∀ x ∈ l, x.text ≠ text := List.forall_mem_cons

theorem block_append_of_ne (h : ∀ x ∈ l, x.text ≠ text) (l' : List Listed) :
    block text (l ++ l') = block text l' := by
  have hnone : (l.find? fun x => x.text == text) = none := by
    rw [List.find?_eq_none]
    intro x hx
    simpa using h x hx
  simp [block, List.find?_append, hnone]

theorem outline_append : outline own (l ++ l') = outline own l ++ outline own l' :=
  List.map_append

theorem outline_of_notMem (h : ∀ x ∈ l, x.text ∉ own) : outline own l = l := by
  conv_rhs => rw [← List.map_id l]
  exact List.map_congr_left fun x hx => if_neg (h x hx)

section Frame

variable {cases narrowing names children arms pointers conversions : List Piece}
  {depth : ℕ} {ln : List Listed}

theorem isItem_match (arms : List Piece) :
    IsItem 2 (.braces "match self.kind" arms) matchOnKind (allRows 3 arms) :=
  isItem_braces (by simp [Starts]) arms

theorem items_matching (arms : List Piece) :
    items (allRows 2 [.braces "match self.kind" arms]) = matching (allRows 3 arms) :=
  ((isItem_match arms).cons (readsAs_nil 2)).items_eq

theorem items_walking (walked : Bool) (arms : List Piece) :
    items (allRows 2 (ViewPlan.childrenBody walked arms)) = walking walked (allRows 3 arms) := by
  cases walked with
  | true =>
    have hfirst : IsItem 2 (.line "let mut children = Vec::new();")
        (Writer.row 2 "let mut children = Vec::new();") [] :=
      isItem_line (by decide) (by decide) (by decide)
    have hlast : IsItem 2 (.line "children") (Writer.row 2 "children") [] :=
      isItem_line (by decide) (by decide) (by decide)
    exact (hfirst.cons ((isItem_match arms).cons (hlast.cons (readsAs_nil 2)))).items_eq
  | false =>
    have hone : IsItem 2 (.line "Vec::new()") (Writer.row 2 "Vec::new()") [] :=
      isItem_line (by decide) (by decide) (by decide)
    exact (hone.cons (readsAs_nil 2)).items_eq

theorem readsAs_methodPieces (h : ReadsAs 1 narrowing l) :
    ReadsAs 1 (ViewPlan.methodPieces narrowing names children pointers)
      (methodItems (allRows 2 [.braces "match self.kind" names]) (allRows 2 children)
        (allRows 2 [.braces "match self.kind" pointers]) l) := by
  have hnew : ReadsAs 1 ViewPlan.newPieces
      [fixed 1 "pub fn new(id: NodeId, kind: NodeKind<'a>, span: Span) -> Self \x7b"
        [Writer.row 2 "Self \x7b id, kind, span \x7d"]] :=
    (isItem_braces (by simp [Starts]) _).cons (readsAs_nil 1).blank
  have hname : IsItem 1 (.braces "pub fn name(&self) -> &'static str"
      [.braces "match self.kind" names]) nameMethod _ := isItem_braces (by simp [Starts]) _
  have hchildren : IsItem 1 (.braces "pub fn children(&self) -> Vec<Node<'a>>" children)
      childrenMethod _ := isItem_braces (by simp [Starts]) _
  have hpointer : IsItem 1 (.braces "pub fn as_ptr(&self) -> NonNull<()>"
      [.braces "match self.kind" pointers]) pointerMethod _ := isItem_braces (by simp [Starts]) _
  have hown := hname.cons (hchildren.cons (hpointer.cons (readsAs_nil 1)).blank).blank
  exact (hnew.append h).append hown

theorem readsAs_frame (h : ReadsAs 0 conversions l) :
    ReadsAs 0 (ViewPlan.frame cases narrowing names children pointers conversions)
      (topItems (allRows 1 cases)
        (allRows 1 (ViewPlan.methodPieces narrowing names children pointers)) l) := by
  have hderives : IsItem 0 (.line ViewPlan.derivesText)
      (Writer.row 0 "#[derive(Debug, PartialEq, Clone, Copy)]") [] :=
    isItem_line (by decide) (by decide) (by decide)
  have hunion : IsItem 0 (.braces "pub enum NodeKind<'a>" cases) union _ :=
    isItem_braces (by simp [Starts]) _
  have hstruct : ReadsAs 0 ViewPlan.structPieces _ :=
    hderives.cons ((isItem_braces (by simp [Starts]) _).cons (readsAs_nil 0).blank)
  have himpl : IsItem 0 (.braces "impl<'a> Node<'a>"
      (ViewPlan.methodPieces narrowing names children pointers)) methodsOfView _ :=
    isItem_braces (by simp [Starts]) _
  have hfirst := hderives.cons (hunion.cons (readsAs_nil 0).blank)
  exact ((hfirst.append hstruct).append (himpl.cons (readsAs_nil 0).blank)).append h

/-- A method is read from its items, if no item before it has its header. -/
theorem method_of_items {header : String} {before after : List Listed} {body : List (List Char)}
    (hbefore : ∀ x ∈ before, x.text ≠ Writer.row 1 header) :
    method (Writer.row 1 header) (before ++ fixed 1 header body :: after) =
      some ⟨outline [matchOnKind] (items body), block matchOnKind (items body)⟩ := by
  rw [method, block_append_of_ne hbefore]
  rw [block_fixed_self]
  rfl

theorem outline_matching (rows : List (List Char)) :
    outline [matchOnKind] (matching rows) = matching [] := rfl

theorem block_matching (rows : List (List Char)) :
    block matchOnKind (matching rows) = some (items rows) := rfl

theorem outline_walking (walked : Bool) (rows : List (List Char)) :
    outline [matchOnKind] (walking walked rows) = walking walked [] := by
  cases walked <;> rfl

theorem block_walking (walked : Bool) (rows : List (List Char)) :
    block matchOnKind (walking walked rows) = if walked then some (items rows) else none := by
  cases walked <;> rfl

theorem block_union (rows rows' : List (List Char)) (l : List Listed) :
    block union (topItems rows rows' l) = some (items rows) := by
  rw [topItems, List.cons_append, block_fixed_of_ne (by decide), List.cons_append]
  exact block_fixed_self 0 _ _ _

theorem block_methodsOfView (rows rows' : List (List Char)) (l : List Listed) :
    block methodsOfView (topItems rows rows' l) = some (items rows') := by
  simp only [topItems, List.cons_append]
  rw [block_fixed_of_ne (by decide), block_fixed_of_ne (by decide),
    block_fixed_of_ne (by decide), block_fixed_of_ne (by decide)]
  exact block_fixed_self 0 _ _ _

theorem outline_topItems {rows rows' : List (List Char)}
    (h : ∀ x ∈ l, x.text ∉ [union, methodsOfView]) :
    outline [union, methodsOfView] (topItems rows rows' l) = topItems [] [] l := by
  rw [topItems, outline_append, outline_of_notMem h]
  rfl

theorem outline_methodItems {rows rows' rows'' : List (List Char)}
    (h : ∀ x ∈ l, x.text ∉ [nameMethod, childrenMethod, pointerMethod]) :
    outline [nameMethod, childrenMethod, pointerMethod] (methodItems rows rows' rows'' l) =
      methodItems [] [] [] l := by
  have hown := outline_of_notMem h
  simp only [outline] at hown
  simp only [methodItems, outline, List.map_append, List.map_cons, hown]
  rfl

/-- Tables that are read from their code are read from the view around them. -/
theorem read_frame
    {caseItems narrowingItems nameItems arms' pointerItems conversionItems : List Listed}
    (walked : Bool) (hcases : ReadsAs 1 cases caseItems)
    (hnarrowing : ReadsAs 1 narrowing narrowingItems) (hnames : ReadsAs 3 names nameItems)
    (harms : ReadsAs 3 arms arms') (hpointers : ReadsAs 3 pointers pointerItems)
    (hconversions : ReadsAs 0 conversions conversionItems)
    (hown : ∀ x ∈ narrowingItems, x.text ∉ [nameMethod, childrenMethod, pointerMethod])
    (htop : ∀ x ∈ conversionItems, x.text ∉ [union, methodsOfView]) :
    read (allRows 0 (ViewPlan.frame cases narrowing names (ViewPlan.childrenBody walked arms)
      pointers conversions)) =
      some ⟨topItems [] [] conversionItems, caseItems, methodItems [] [] [] narrowingItems,
        ⟨matching [], some nameItems⟩, ⟨walking walked [], if walked then some arms' else none⟩,
        ⟨matching [], some pointerItems⟩⟩ := by
  have hne (text : List Char) (ht : text ∈ [nameMethod, childrenMethod, pointerMethod]) :
      ∀ x ∈ narrowingItems, x.text ≠ text := fun x hx h => hown x hx (h ▸ ht)
  have hname (rows rows' : List (List Char)) : method nameMethod
      (methodItems (allRows 2 [.braces "match self.kind" names]) rows rows' narrowingItems) =
      some ⟨matching [], some nameItems⟩ := by
    refine (method_of_items ?_).trans ?_
    · exact forall_fixed_cons.mpr ⟨by decide, hne _ (.head _)⟩
    · rw [items_matching, outline_matching, block_matching, hnames.items_eq]
  have hchildren (rows rows' : List (List Char)) : method childrenMethod
      (methodItems rows (allRows 2 (ViewPlan.childrenBody walked arms)) rows' narrowingItems) =
      some ⟨walking walked [], if walked then some arms' else none⟩ := by
    rw [methodItems, List.append_cons]
    refine (method_of_items ?_).trans ?_
    · simp only [List.forall_mem_append, forall_fixed_cons]
      exact ⟨⟨by decide, hne _ (.tail _ (.head _))⟩, by decide, by simp⟩
    · rw [items_walking, outline_walking, block_walking, harms.items_eq]
  have hpointer (rows rows' : List (List Char)) : method pointerMethod
      (methodItems rows rows' (allRows 2 [.braces "match self.kind" pointers]) narrowingItems) =
      some ⟨matching [], some pointerItems⟩ := by
    rw [methodItems, List.append_cons, List.append_cons]
    refine (method_of_items ?_).trans ?_
    · simp only [List.forall_mem_append, forall_fixed_cons]
      exact ⟨⟨⟨by decide, hne _ (.tail _ (.tail _ (.head _)))⟩, by decide, by simp⟩,
        by decide, by simp⟩
    · rw [items_matching, outline_matching, block_matching, hpointers.items_eq]
  simp only [read, (readsAs_frame hconversions).items_eq, block_union, block_methodsOfView,
    hcases.items_eq, (readsAs_methodPieces hnarrowing).items_eq, Option.bind_eq_bind,
    Option.bind_some, hname, hchildren, hpointer, outline_topItems htop, outline_methodItems hown]
  rfl

end Frame

/-- No method that narrows is one of the view's own. -/
theorem narrowing_notMem (gate : Entry → Option Gate) (kinds : List Entry) :
    ∀ x ∈ kinds.flatMap fun e => [asItem (gate e) e, isItem (gate e) e],
      x.text ∉ [nameMethod, childrenMethod, pointerMethod] := by
  -- One kind of header speaks of an option, the other has a letter that no method has there.
  have has (e : Entry) : 'O' ∈ (asItem (gate e) e).text := by
    simp [asItem, gatedItem, Writer.row]
  have his (e : Entry) : (isItem (gate e) e).text[11]? = some 'i' := by
    simp [isItem, gatedItem, Writer.row]
  have hown : ∀ text ∈ [nameMethod, childrenMethod, pointerMethod],
      'O' ∉ text ∧ text[11]? ≠ some 'i' := by decide
  intro x hx hmem
  obtain ⟨hO, hi⟩ := hown _ hmem
  obtain ⟨e, -, he⟩ := List.mem_flatMap.mp hx
  rcases List.mem_pair.mp he with rfl | rfl
  · exact hO (has e)
  · exact hi (his e)

/-- No conversion is a block that is read on its own. -/
theorem conversion_notMem (p : Positions) (gate : Entry → Option Gate) (kinds : List Entry) :
    ∀ x ∈ kinds.map fun e => conversionItem p (gate e) e, x.text ∉ [union, methodsOfView] := by
  have hletter (e : Entry) : (conversionItem p (gate e) e).text[9]? = some 'F' := by
    simp [conversionItem, gatedItem, Writer.row]
  have hown : ∀ text ∈ [union, methodsOfView], text[9]? ≠ some 'F' := by decide
  intro x hx hmem
  obtain ⟨e, -, rfl⟩ := List.mem_map.mp hx
  exact hown _ hmem (hletter e)

/-- The view around its tables, each of which is read from the code for its cases. -/
theorem read_lists (s : Schema) (p : Positions) (code : (ViewCase → List Piece) → List Piece)
    (gate : Entry → Option Gate) (kinds : List Entry)
    (h : ∀ {depth f g}, ViewCase.Lists s p depth f g →
      ReadsAs depth (code f) (kinds.flatMap fun e => g (gate e) e))
    (walked : Bool) :
    read (allRows 0 (ViewPlan.frame (code ViewCase.unionPieces) (code ViewCase.narrowingPieces)
      (code ViewCase.namePieces) (ViewPlan.childrenBody walked (code ViewCase.childrenPieces))
      (code ViewCase.pointerPieces) (code ViewCase.conversionPieces))) =
      some (ofKinds s p gate walked kinds) := by
  have hmap {depth : ℕ} {f : ViewCase → List Piece} {g : Option Gate → Entry → Listed}
      (hl : ViewCase.Lists s p depth f fun gate e => [g gate e]) :
      ReadsAs depth (code f) (kinds.map fun e => g (gate e) e) := by
    rw [List.map_eq_flatMap]
    exact h hl
  exact read_frame walked (hmap (ViewCase.lists_unionPieces s p))
    (h (ViewCase.lists_narrowingPieces s p)) (hmap (ViewCase.lists_namePieces s p))
    (hmap (ViewCase.lists_childrenPieces s p)) (hmap (ViewCase.lists_pointerPieces s p))
    (hmap (ViewCase.lists_conversionPieces s p)) (narrowing_notMem gate kinds)
    (conversion_notMem p gate kinds)

end Tables

/-! ### The view of a schema -/

namespace ViewPlan

variable {s : Schema} {p : Positions} {view : ViewPlan}

theorem planned_of_ofSchema (h : ofSchema s p = .ok view) : ∀ c ∈ view.cases, c.Planned s p := by
  intro c hc
  obtain ⟨e, -, he⟩ := exists_of_mem_collect (cases_of_ofSchema h) hc
  have hentry : c.entry = e := by
    obtain ⟨plan, -, rfl⟩ := map_eq_ok_iff.mp he
    rfl
  rw [ViewCase.Planned, hentry, he]

theorem map_entry_of_collect {l : List Entry} {cases : List ViewCase}
    (h : collect (ViewCase.ofEntry s p) l = .ok cases) : cases.map ViewCase.entry = l := by
  refine map_of_collect (fun e c hc => ?_) h
  obtain ⟨plan, -, rfl⟩ := map_eq_ok_iff.mp hc
  rfl

theorem hasChildren_of_ofSchema (h : ofSchema s p = .ok view) :
    view.hasChildren = s.participating.any fun e => e.children.isSome := by
  rw [← map_entry_of_collect (cases_of_ofSchema h), List.any_map, hasChildren, Bool.eq_iff_iff,
    List.any_eq_true, List.any_eq_true]
  refine exists_congr fun c => and_congr_right fun hc => ?_
  simp [ChildrenPlan.isNone_of_ofEntry (planned_of_ofSchema h c hc).children]

theorem rows_code (view : ViewPlan) : Code.rows 0 view.code = allRows 0 view.pieces := by
  rw [code_eq, rows_allRequests]

theorem decideRows_code (view : ViewPlan) (v : Gate.Valuation) :
    decideRows v .keep (Code.rows 0 view.code) = allRows 0 (allDecided v view.pieces) := by
  have hdecided := decideRows_allRows v view.pieces 0 view.allLaid_pieces []
  simpa only [List.append_nil, decideRows, rows_code] using hdecided

/-- Every table of the view lists the kinds that take part: it has one item for each of them, in the
order of the schema, under the name and right after the condition of that kind, and there are no
other items. Once the features are decided, every table lists the kinds that stay, under what is
left of their gates; if no feature holds a backslash, those are the kinds that are there, without
their gates. The lines are those of the text, if the schema was loaded. -/
theorem tables_list_kinds (h : ofSchema s p = .ok view) :
    Tables.read (Code.rows 0 view.code) = some
        (Tables.ofKinds s p Entry.gate (s.participating.any (·.children.isSome)) s.participating) ∧
      (∀ v, Tables.read (decideRows v .keep (Code.rows 0 view.code)) = some
        (Tables.ofKinds s p (fun e => Gate.unread e.gate)
          (s.participating.any (·.children.isSome))
          (s.participating.filter fun e => Gate.keeps v e.gate))) ∧
      ((∀ e ∈ s.participating, Gate.Asks e.gate ∧ Gate.Verbatim e.gate) → ∀ v,
        Tables.read (decideRows v .keep (Code.rows 0 view.code)) = some
          (Tables.ofKinds s p (fun _ => none) (s.participating.any (·.children.isSome))
            (s.participating.filter (·.enabled v)))) ∧
      ((∃ d, Schema.ofDraft d = .ok s) → (∀ e ∈ s.participating, Gate.Asks e.gate) ∧
        Text.lines (Code.text view.code) = Code.rows 0 view.code ++ [[]]) := by
  have hplanned := planned_of_ofSchema h
  have hentries := map_entry_of_collect (cases_of_ofSchema h)
  have hdecided (v : Gate.Valuation) (gate : Entry → Option Gate)
      (hgate : ∀ e ∈ s.participating.filter fun e => Gate.keeps v e.gate,
        Gate.unread e.gate = gate e) :
      Tables.read (decideRows v .keep (Code.rows 0 view.code)) = some
        (Tables.ofKinds s p gate view.hasChildren
          (s.participating.filter fun e => Gate.keeps v e.gate)) := by
    rw [decideRows_code, pieces, allDecided_frame, allDecided_childrenBody, ← hentries]
    refine Tables.read_lists s p (fun f => allDecided v (view.cases.flatMap f)) _ _
      (fun {depth f g} hl => ?_) view.hasChildren
    have hsame : ((view.cases.map ViewCase.entry).filter fun e => Gate.keeps v e.gate).flatMap
        (fun e => g (gate e) e) = _ :=
      List.flatMap_congr fun e he => by rw [← hgate e (by rwa [← hentries])]
    rw [hsame]
    exact hl.decided_flatMap v hplanned
  rw [← hasChildren_of_ofSchema h]
  refine ⟨?_, fun v => hdecided v _ fun _ _ => rfl, fun hg v => ?_, ?_⟩
  · rw [rows_code, pieces, ← hentries]
    exact Tables.read_lists s p (fun f => view.cases.flatMap f) _ _
      (fun hl => hl.written_flatMap hplanned) view.hasChildren
  · have hkept : (s.participating.filter (·.enabled v)) =
        s.participating.filter fun e => Gate.keeps v e.gate :=
      List.filter_congr fun e he => (Gate.keeps_eq_allows (hg e he).1 (hg e he).2 v).symm
    rw [hkept]
    refine hdecided v _ fun e he => ?_
    have hm := (List.mem_filter.mp he).1
    exact Gate.unread_eq_none (hg e hm).1 (hg e hm).2
  · rintro ⟨d, hs⟩
    have hplain : ∀ c ∈ view.cases, c.Plain := by
      intro c hc
      obtain ⟨e, he, hce⟩ := exists_of_mem_collect (cases_of_ofSchema h) hc
      exact ViewCase.plain_of_ofEntry hs (List.mem_filter.mp he).1 hce
    refine ⟨fun e he => ?_, Code.lines_text (Code.newline_notMem_rows (plain_code hplain) 0)⟩
    exact (Schema.spelled_ofDraft hs e (List.mem_filter.mp he).1).gate.asks

end ViewPlan

namespace Dialects

/-- With the feature on, one of the two products under one name is listed. -/
theorem tables_modern :
    Tables.read (Code.rows 0 view.code) =
        some (Tables.ofKinds schema (Positions.analyze schema) Entry.gate true [modern, old, any]) ∧
      Tables.read (decideRows (fun _ => true) .keep (Code.rows 0 view.code)) =
        some (Tables.ofKinds schema (Positions.analyze schema) (fun _ => none) true [modern, any]) ∧
      Text.lines (Code.text view.code) = Code.rows 0 view.code ++ [[]] := by
  have hs : Schema.ofDraft draft = .ok schema := Schema.ofDraft_eq_ok (by decide +kernel)
  have hw : ViewPlan.ofSchema schema (Positions.analyze schema) = .ok view := by decide +kernel
  obtain ⟨hwritten, -, hdecided, hloaded⟩ := ViewPlan.tables_list_kinds hw
  obtain ⟨hasks, hlines⟩ := hloaded ⟨draft, hs⟩
  have hverbatim : ∀ e ∈ schema.participating, Gate.Verbatim e.gate :=
    fun e he => verbatim_entries e (List.mem_filter.mp he).1
  exact ⟨hwritten, hdecided (fun e he => ⟨hasks e he, hverbatim e he⟩) fun _ => true, hlines⟩

end Dialects

end TreeSchema
