import TreeSchema.Proofs.Pieces
import TreeSchema.Proofs.Plain
import TreeSchema.Proofs.Source.Condition

/-!
# The feature-gate law

Deciding the features of a written text gives the text that is written for the kinds that are
there, without their gates, as far as the attributes of the gates mean the gates. Each piece that
belongs to a kind is an item under its gate, and nothing else holds a condition; the one choice that
looks at all kinds is whether there are any children.
-/

namespace TreeSchema

open Checked Source

namespace Piece

/-! ### Lines known by their ends -/

theorem getLast?_append_literal (a : String) {b : String} {c : Char}
    (h : b.toList.getLast? = some c) : (a ++ b).toList.getLast? = some c := by
  rw [String.toList_append, List.getLast?_append, h, Option.some_or]

theorem free_append {a b : String} (h : (b.toList.getLast?.any (· != ']')) = true) :
    Free (a ++ b) := by
  obtain ⟨c, hc, hne⟩ := (Option.any_eq_true _ _).mp h
  refine free_of_last ?_
  rw [getLast?_append_literal a hc]
  simpa using hne

theorem item_line {a b : String}
    (h : (b.toList.getLast?.any fun c => c != ']' && c != '\x7b') = true) :
    Item [.line (a ++ b)] := by
  obtain ⟨c, hc, hne⟩ := (Option.any_eq_true _ _).mp h
  have hlast := getLast?_append_literal a hc
  simp only [Bool.and_eq_true, bne_iff_ne] at hne
  refine .line ?_ ?_ <;> rw [hlast]
  · simpa using hne.1
  · simpa using hne.2

theorem item_braces (header : String) (body : List Piece) : Item [.braces header body] :=
  .block body (getLast?_append_literal header rfl)

theorem bare_braces {header : String} {body : List Piece} (h : AllBare body) :
    (Piece.braces header body).Bare :=
  ⟨free_append (by decide), h, free_of_last (by decide)⟩

theorem laid_braces {header : String} {body : List Piece} (h : AllLaid body) :
    (Piece.braces header body).Laid :=
  ⟨free_append (by decide), h, free_of_last (by decide)⟩

end Piece

open Piece

/-! ### The pieces of a kind -/

namespace Entry

variable (s : Schema) (e : Entry)

/-- It ends like a condition, but its third character is another one. -/
theorem free_derivesText : Free e.derivesText := by
  rw [Free, Option.eq_none_iff_forall_ne_some]
  intro c hc
  obtain ⟨⟨rest, hrest⟩, -⟩ := eq_of_condition?_eq_some hc
  simp [derivesText] at hrest

theorem allBare_fieldPieces (visibility : String) (hasId : Bool) (fields : Fields) :
    AllBare (fieldPieces s visibility hasId fields) := by
  refine allEvery_append.mpr ⟨?_, allEvery_map fun f _ => free_append (by decide)⟩
  split
  · exact ⟨free_append (by decide), trivial⟩
  · trivial

theorem bare_variantPiece (v : String × Variant) : (variantPiece s v).Bare := by
  unfold variantPiece
  split
  · exact free_append (by decide)
  · exact free_append (by decide)
  · exact ⟨free_append (by decide), allBare_fieldPieces s "" _ _, free_of_last (by decide)⟩

theorem allBare_definitionPieces : AllBare (e.definitionPieces s) := by
  unfold definitionPieces
  split
  · exact ⟨free_append (by decide), trivial⟩
  · exact ⟨e.free_derivesText, bare_braces (allBare_fieldPieces s "pub " _ _), trivial⟩
  · exact ⟨e.free_derivesText, bare_braces (allEvery_map fun v _ => bare_variantPiece s v), trivial⟩

theorem item_definitionPieces : Item (e.definitionPieces s) := by
  have hderives (header : String) (body : List Piece) :
      Item [.line e.derivesText, .braces header body] := by
    refine .marked ?_ (item_braces header body)
    have hlast := getLast?_append_literal ("#[derive(" ++ ", ".intercalate e.derives)
      (show ")]".toList.getLast? = some ']' from rfl)
    simp only [isAttribute, derivesText, hlast]
    simp
  unfold definitionPieces
  split
  · exact item_line (by decide)
  · exact hderives _ _
  · exact hderives _ _

end Entry

theorem Arm.free_text {α : Type} (a : Arm α) (binding : Option String) (result : String) :
    Free (a.text binding result) := free_append (by decide)

theorem IdentityPlan.allBare_pieces (e : Entry) (plan : IdentityPlan) :
    AllBare (plan.pieces e) := by
  have harm (a : Arm IdentityAction) : Free (armText a) := by
    unfold armText
    split <;> exact Arm.free_text _ _ _
  have hbody : plan.bodyPiece.Bare := by
    cases plan with
    | stored => exact free_of_last (by decide)
    | dispatch arms => exact bare_braces (allEvery_map fun a _ => harm a)
  exact ⟨bare_braces ⟨bare_braces ⟨hbody, trivial⟩, trivial⟩, trivial⟩

theorem PositionPlan.allBare_pieces (e : Entry) (plan : PositionPlan) :
    AllBare (plan.pieces e) := by
  have harm (a : Arm PositionAction) : Free (armText a) := by
    unfold armText
    split <;> exact Arm.free_text _ _ _
  have hbody : plan.bodyPiece.Bare := by
    cases plan with
    | field f => exact free_of_head (c := 's') (by simp) (by decide) (by decide)
    | dispatch arms => exact bare_braces (allEvery_map fun a _ => harm a)
  exact ⟨bare_braces ⟨bare_braces ⟨hbody, trivial⟩, trivial⟩, trivial⟩

/-! ### The pieces of a case -/

theorem Access.bare_piece (a : Access) (o : Operand) (depth : ℕ) : (a.piece o depth).Bare := by
  induction a generalizing o depth with
  | nil => exact free_append (by decide)
  | cons w a ih =>
    cases w with
    | box => exact ih o.content depth
    | _ => exact bare_braces ⟨ih _ _, trivial⟩

theorem VariantWalk.bare_piece (type : String) (v : VariantWalk) : (v.piece type).Bare := by
  unfold piece
  split
  · exact free_append (by decide)
  · exact bare_braces ⟨Access.bare_piece _ _ _, trivial⟩
  · exact bare_braces (allEvery_map fun w _ => w.access.bare_piece _ _)

theorem ChildrenPlan.allBare_pieces (type : String) (p : ChildrenPlan) :
    AllBare (p.pieces type) := by
  unfold pieces
  split
  · trivial
  · exact allEvery_map fun w _ => w.access.bare_piece _ _
  · exact ⟨bare_braces (allEvery_map fun v _ => v.bare_piece type), trivial⟩

namespace Piece

/-! ### Gated pieces -/

/-- The lines that are not empty. -/
def solid (rows : List (List Char)) : List (List Char) := rows.filter fun row => !row.isEmpty

@[simp] theorem solid_append (rows rows' : List (List Char)) :
    solid (rows ++ rows') = solid rows ++ solid rows' := List.filter_append ..

/-- Code with the same lines up to empty ones, at any indentation. -/
def Alike (cs ds : List Piece) : Prop :=
  ∀ depth, solid (allRows depth cs) = solid (allRows depth ds)

theorem Alike.refl (cs : List Piece) : Alike cs cs := fun _ => rfl

theorem Alike.append {cs cs' ds ds' : List Piece} (h : Alike cs ds) (h' : Alike cs' ds') :
    Alike (cs ++ cs') (ds ++ ds') := by
  intro depth
  simp [h depth, h' depth]

theorem Alike.braces {cs ds : List Piece} (header : String) (h : Alike cs ds) :
    Alike [.braces header cs] [.braces header ds] := by
  intro depth
  have hinner := h (depth + 1)
  simp only [Piece.braces, allRows, rows, List.append_nil, solid, List.cons_append,
    List.filter_cons, List.filter_append] at hinner ⊢
  rw [hinner]

theorem Alike.cons {cs ds : List Piece} (c : Piece) (h : Alike cs ds) :
    Alike (c :: cs) (c :: ds) := (Alike.refl [c]).append h

theorem Alike.bracesCons {cs ds cs' ds' : List Piece} (header : String) (h : Alike cs ds)
    (h' : Alike cs' ds') : Alike (.braces header cs :: cs') (.braces header ds :: ds') :=
  (h.braces header).append h'

variable {α : Type} {gate : α → Option Gate} {regated : Option Gate → α → α}
  {f f' : α → List Piece}

/-- Code for each of some things that remains just when the gate keeps it, under what is left of the
gate. -/
structure Gated (gate : α → Option Gate) (regated : Option Gate → α → α) (f : α → List Piece) :
    Prop where
  laid : ∀ a, AllLaid (f a)
  alike : ∀ v a, Alike (allDecided v (f a))
    (if Gate.keeps v (gate a) then f (regated (Gate.unread (gate a)) a) else [])

theorem gated_blank : Gated gate regated fun _ => [.blank] where
  laid _ := ⟨trivial, trivial⟩
  alike v a depth := by split <;> rfl

theorem gated_guarded {body : α → List Piece} (hgate : ∀ g a, gate (regated g a) = g)
    (hbody : ∀ g a, body (regated g a) = body a) (hitem : ∀ a, Item (body a))
    (hbare : ∀ a, AllBare (body a)) :
    Gated gate regated fun a => [.guarded (gate a) (body a)] where
  laid a := ⟨laid_guarded (hitem a) (hbare a), trivial⟩
  alike v a depth := by
    simp only [allDecided, decided, AllBare.allDecided_eq v _ (hbare a), hgate, hbody]
    split <;> simp

theorem Gated.append (h : Gated gate regated f) (h' : Gated gate regated f') :
    Gated gate regated fun a => f a ++ f' a where
  laid a := allEvery_append.mpr ⟨h.laid a, h'.laid a⟩
  alike v a := by
    have hboth := (h.alike v a).append (h'.alike v a)
    rw [allDecided_append]
    cases hv : Gate.keeps v (gate a) <;> simpa [hv] using hboth

theorem Gated.elim {β : Type} {o : α → Option β} {f : β → α → List Piece}
    (ho : ∀ g a, o (regated g a) = o a) (h : ∀ b, Gated gate regated (f b)) :
    Gated gate regated fun a => (o a).elim [] fun b => f b a where
  laid a := by
    cases o a with
    | none => trivial
    | some b => exact (h b).laid a
  alike v a := by
    simp only [ho]
    cases o a with
    | none => simpa [allDecided] using Alike.refl []
    | some b => exact (h b).alike v a

theorem Gated.unless {p : α → Bool} (hp : ∀ g a, p (regated g a) = p a)
    (h : Gated gate regated f) : Gated gate regated fun a => if p a then [] else f a where
  laid a := by
    cases p a with
    | true => trivial
    | false => exact h.laid a
  alike v a := by
    simp only [hp]
    cases p a with
    | true => simpa [allDecided] using Alike.refl []
    | false => exact h.alike v a

theorem Gated.allLaid_flatMap (h : Gated gate regated f) (l : List α) : AllLaid (l.flatMap f) :=
  allEvery_flatMap fun a _ => h.laid a

/-- Code for a list is the code for those that their gates keep. -/
theorem Gated.alike_flatMap (h : Gated gate regated f) (v : Gate.Valuation) (l : List α) :
    Alike (allDecided v (l.flatMap f)) (((l.filter fun a => Gate.keeps v (gate a)).map
      fun a => regated (Gate.unread (gate a)) a).flatMap f) := by
  induction l with
  | nil => exact .refl _
  | cons a l ih =>
    have ha := (h.alike v a).append ih
    rw [List.flatMap_cons, allDecided_append, List.filter_cons]
    split at ha <;> simp_all

end Piece

/-- Deciding the features of some code gives other code, up to empty lines. This holds of the lines
that are written, and of the lines of the texts if none of those that are written first holds a line
break itself. -/
def Code.Becomes (v : Gate.Valuation) (before after : Code) : Prop :=
  solid (decideRows v .keep (Code.rows 0 before)) = solid (Code.rows 0 after) ∧
  ((∀ row ∈ Code.rows 0 before, '\n' ∉ row) →
    solid (decideRows v .keep (Text.lines (Code.text before))) =
      solid (Text.lines (Code.text after)))

theorem Piece.becomes {v : Gate.Valuation} {before after : List Piece} (hl : AllLaid before)
    (ha : Alike (allDecided v before) after) :
    Code.Becomes v (allRequests before) (allRequests after) := by
  have hdecided (rest : List (List Char)) := decideRows_allRows v before 0 hl rest
  refine ⟨?_, fun hplain => ?_⟩
  · have hall := hdecided []
    rw [List.append_nil, decideRows, List.append_nil] at hall
    rw [rows_allRequests, rows_allRequests, hall, ha 0]
  · -- The lines of the second code are among those of the first, so that they hold no break either.
    rw [rows_allRequests] at hplain
    have hafter : ∀ row ∈ allRows 0 after, '\n' ∉ row := by
      intro row hrow
      by_cases hempty : row = []
      · simp [hempty]
      · have hsolid : row ∈ solid (allRows 0 after) :=
          List.mem_filter.mpr ⟨hrow, by simpa using hempty⟩
        rw [← ha 0] at hsolid
        exact hplain row ((allRows_decided_sublist v before 0).subset (List.mem_filter.mp hsolid).1)
    have hend : decideRows v .keep [[]] = [[]] := by
      have hc : condition? [] = none := by decide
      simp [decideRows, hc]
    rw [← rows_allRequests] at hplain hafter
    rw [Code.lines_text hplain, Code.lines_text hafter, rows_allRequests, rows_allRequests,
      hdecided, hend, solid_append, solid_append, ha 0]

/-! ### Kinds -/

/-- The entry under another gate. -/
def Entry.regated (gate : Option Gate) (e : Entry) : Entry := { e with gate }

namespace KindPlan

def regated (gate : Option Gate) (k : KindPlan) : KindPlan :=
  { k with entry := k.entry.regated gate }

/-- The kinds that are there, without their gates. -/
def remaining (v : Gate.Valuation) (kinds : List KindPlan) : List KindPlan :=
  (kinds.filter fun k => k.entry.enabled v).map (regated none)

/-- The kinds that stay in a text whose conditions are decided, under what is left of their
gates. -/
def settled (v : Gate.Valuation) (kinds : List KindPlan) : List KindPlan :=
  (kinds.filter fun k => Gate.keeps v k.entry.gate).map
    fun k => k.regated (Gate.unread k.entry.gate)

theorem gated_item (body : KindPlan → List Piece) (hbody : ∀ g k, body (regated g k) = body k)
    (hitem : ∀ k, Item (body k)) (hbare : ∀ k, AllBare (body k)) :
    Gated (fun k : KindPlan => k.entry.gate) regated fun k => k.item (body k) :=
  (gated_guarded (fun _ _ => rfl) hbody hitem hbare).append gated_blank

theorem gated_pieces (s : Schema) :
    Gated (fun k : KindPlan => k.entry.gate) regated (KindPlan.pieces s) := by
  have hdef := gated_item (fun k => k.entry.definitionPieces s) (fun _ _ => rfl)
    (fun k => k.entry.item_definitionPieces s) fun k => k.entry.allBare_definitionPieces s
  have hidentity (i : IdentityPlan) := gated_item (fun k => i.pieces k.entry) (fun _ _ => rfl)
    (fun _ => item_braces _ _) fun k => i.allBare_pieces k.entry
  have hposition (q : PositionPlan) := gated_item (fun k => q.pieces k.entry) (fun _ _ => rfl)
    (fun _ => item_braces _ _) fun k => q.allBare_pieces k.entry
  refine hdef.append (Gated.unless (fun _ _ => rfl) (Gated.append ?_ ?_))
  · exact Gated.elim (fun _ _ => rfl) hidentity
  · exact Gated.elim (fun _ _ => rfl) hposition

end KindPlan

/-! ### The view -/

namespace ViewCase

def regated (gate : Option Gate) (c : ViewCase) : ViewCase :=
  { c with entry := c.entry.regated gate }

/-- Code that belongs to a case. -/
abbrev Owned (f : ViewCase → List Piece) : Prop := Gated (fun c => c.entry.gate) regated f

theorem owned_item (piece : ViewCase → Piece) (hpiece : ∀ g c, piece (regated g c) = piece c)
    (hitem : ∀ c, Item [piece c]) (hbare : ∀ c, (piece c).Bare) :
    Owned fun c => [c.item (piece c)] :=
  gated_guarded (fun _ _ => rfl) (fun g c => congrArg (fun p => [p]) (hpiece g c)) hitem
    fun c => ⟨hbare c, trivial⟩

theorem owned_unionPieces : Owned unionPieces :=
  owned_item _ (fun _ _ => rfl) (fun _ => item_line (by decide)) fun _ => free_append (by decide)

theorem owned_namePieces : Owned namePieces :=
  owned_item _ (fun _ _ => rfl) (fun _ => item_line (by decide)) fun _ => free_append (by decide)

theorem owned_pointerPieces : Owned pointerPieces :=
  owned_item _ (fun _ _ => rfl) (fun _ => item_line (by decide)) fun _ => free_append (by decide)

theorem bare_childrenPiece (c : ViewCase) : c.childrenPiece.Bare := by
  unfold childrenPiece
  split
  · exact free_append (by decide)
  · exact bare_braces (c.children.allBare_pieces c.type)

theorem owned_childrenPieces : Owned childrenPieces := by
  refine owned_item _ (fun _ _ => rfl) (fun c => ?_) bare_childrenPiece
  unfold childrenPiece
  split
  · exact item_line (by decide)
  · exact item_braces _ _

theorem bare_asPiece (c : ViewCase) : c.asPiece.Bare := by
  have hsome : Free "Some(node)" := free_of_last (by decide)
  have hnone : Free "None" := free_of_last (by decide)
  refine bare_braces ⟨⟨?_, ⟨hsome, trivial⟩, ?_, ⟨hnone, trivial⟩, ?_⟩, trivial⟩
  · exact free_append (by decide)
  · exact free_of_last (by decide)
  · exact free_of_last (by decide)

theorem bare_isPiece (c : ViewCase) : c.isPiece.Bare :=
  bare_braces ⟨free_append (by decide), trivial⟩

theorem owned_narrowingPieces : Owned narrowingPieces := by
  have has : Owned fun c => [c.item c.asPiece] :=
    owned_item _ (fun _ _ => rfl) (fun _ => item_braces _ _) bare_asPiece
  have his : Owned fun c => [c.item c.isPiece] :=
    owned_item _ (fun _ _ => rfl) (fun _ => item_braces _ _) bare_isPiece
  exact (has.append gated_blank).append (his.append gated_blank)

theorem bare_conversionPiece (c : ViewCase) : c.conversionPiece.Bare :=
  bare_braces ⟨bare_braces ⟨free_append (by decide), trivial⟩, trivial⟩

theorem owned_conversionPieces : Owned conversionPieces := by
  have himpl : Owned fun c => [c.item c.conversionPiece] :=
    owned_item _ (fun _ _ => rfl) (fun _ => item_braces _ _) bare_conversionPiece
  exact himpl.append gated_blank

end ViewCase

namespace ViewPlan

variable {view : ViewPlan} {v : Gate.Valuation}

/-- The cases that are there, without their gates. -/
def remaining (v : Gate.Valuation) (view : ViewPlan) : ViewPlan :=
  ⟨(view.cases.filter fun c => c.entry.enabled v).map (ViewCase.regated none)⟩

/-- The cases that stay in a text whose conditions are decided, under what is left of their
gates. -/
def settled (v : Gate.Valuation) (view : ViewPlan) : ViewPlan :=
  ⟨(view.cases.filter fun c => Gate.keeps v c.entry.gate).map
    fun c => c.regated (Gate.unread c.entry.gate)⟩

theorem free_derivesText : Free derivesText := by
  change condition? _ = none
  decide

theorem allBare_structPieces : AllBare structPieces := by
  refine ⟨free_derivesText, bare_braces ⟨?_, ?_, ?_, trivial⟩, trivial, trivial⟩
  · exact free_append (by decide)
  · exact free_append (by decide)
  · exact free_append (by decide)

theorem allBare_newPieces : AllBare newPieces :=
  ⟨bare_braces ⟨free_of_last (by decide), trivial⟩, trivial, trivial⟩

section Frame

variable {cases narrowing names children pointers conversions : List Piece}
  {cases' narrowing' names' children' pointers' conversions' : List Piece}

theorem allLaid_frame (hcases : AllLaid cases) (hnarrowing : AllLaid narrowing)
    (hnames : AllLaid names) (hchildren : AllLaid children) (hpointers : AllLaid pointers)
    (hconversions : AllLaid conversions) :
    AllLaid (frame cases narrowing names children pointers conversions) := by
  have hunion : AllLaid [.line derivesText, .braces "pub enum NodeKind<'a>" cases, .blank] :=
    ⟨free_derivesText, laid_braces hcases, trivial, trivial⟩
  have hmethods : AllLaid (methodPieces narrowing names children pointers) := by
    refine allEvery_append.mpr ⟨allEvery_append.mpr ⟨allBare_newPieces.allLaid, hnarrowing⟩, ?_⟩
    exact ⟨laid_braces ⟨laid_braces hnames, trivial⟩, trivial, laid_braces hchildren, trivial,
      laid_braces ⟨laid_braces hpointers, trivial⟩, trivial⟩
  refine allEvery_append.mpr ⟨allEvery_append.mpr ⟨allEvery_append.mpr ⟨hunion, ?_⟩, ?_⟩,
    hconversions⟩
  · exact allBare_structPieces.allLaid
  · exact ⟨laid_braces hmethods, trivial, trivial⟩

/-- Deciding the view is deciding its parts. -/
theorem alike_frame (hcases : Alike (allDecided v cases) cases')
    (hnarrowing : Alike (allDecided v narrowing) narrowing')
    (hnames : Alike (allDecided v names) names')
    (hchildren : Alike (allDecided v children) children')
    (hpointers : Alike (allDecided v pointers) pointers')
    (hconversions : Alike (allDecided v conversions) conversions') :
    Alike (allDecided v (frame cases narrowing names children pointers conversions))
      (frame cases' narrowing' names' children' pointers' conversions') := by
  have hunion : Alike
      (allDecided v [.line derivesText, .braces "pub enum NodeKind<'a>" cases, .blank])
      [.line derivesText, .braces "pub enum NodeKind<'a>" cases', .blank] :=
    .cons _ (.bracesCons _ hcases (.refl _))
  have hmethods : Alike (allDecided v (methodPieces narrowing names children pointers))
      (methodPieces narrowing' names' children' pointers') := by
    unfold methodPieces
    rw [allDecided_append, allDecided_append, AllBare.allDecided_eq v _ allBare_newPieces]
    refine (((Alike.refl _).append hnarrowing).append ?_)
    exact .bracesCons _ (.braces _ hnames) (.cons _ (.bracesCons _ hchildren
      (.cons _ (.braces _ (.braces _ hpointers)))))
  unfold frame
  simp only [allDecided_append, AllBare.allDecided_eq v _ allBare_structPieces]
  refine (((hunion.append (.refl _)).append ?_).append hconversions)
  exact .bracesCons _ hmethods (.refl _)

end Frame

/-- Nothing in the view holds a condition but what belongs to its cases. -/
theorem allLaid_pieces (view : ViewPlan) : AllLaid view.pieces := by
  have harms := ViewCase.owned_childrenPieces.allLaid_flatMap view.cases
  have hchildren : AllLaid (childrenBody view.hasChildren
      (view.cases.flatMap ViewCase.childrenPieces)) := by
    unfold childrenBody
    split
    · exact ⟨free_of_last (by decide), laid_braces harms, free_of_last (by decide), trivial⟩
    · exact ⟨free_of_last (by decide), trivial⟩
  exact allLaid_frame (ViewCase.owned_unionPieces.allLaid_flatMap _)
    (ViewCase.owned_narrowingPieces.allLaid_flatMap _)
    (ViewCase.owned_namePieces.allLaid_flatMap _) hchildren
    (ViewCase.owned_pointerPieces.allLaid_flatMap _)
    (ViewCase.owned_conversionPieces.allLaid_flatMap _)

theorem hasChildren_of_settled (h : (view.settled v).hasChildren = true) :
    view.hasChildren = true := by
  simp only [hasChildren, settled, List.any_eq_true, List.mem_map, List.mem_filter] at h ⊢
  obtain ⟨_, ⟨c, ⟨hc, -⟩, rfl⟩, hchildren⟩ := h
  exact ⟨c, hc, hchildren⟩

/-- The decided view is the view of the cases that stay, if there are children in both or in
neither. -/
theorem alike_pieces (h : view.hasChildren = false ∨ (view.settled v).hasChildren = true) :
    Alike (allDecided v view.pieces) (view.settled v).pieces := by
  -- Whether there are children is the only thing that one text says about all cases.
  have hsame : (view.settled v).hasChildren = view.hasChildren := by
    rcases h with hnone | hsome
    · rw [hnone, Bool.eq_false_iff]
      intro hr
      rw [hasChildren_of_settled hr] at hnone
      cases hnone
    · rw [hsome, hasChildren_of_settled hsome]
  have harms := ViewCase.owned_childrenPieces.alike_flatMap v view.cases
  have hchildren : Alike
      (allDecided v (childrenBody view.hasChildren (view.cases.flatMap ViewCase.childrenPieces)))
      (childrenBody (view.settled v).hasChildren
        ((view.settled v).cases.flatMap ViewCase.childrenPieces)) := by
    rw [hsame]
    unfold childrenBody
    split
    · exact .cons _ (.bracesCons _ harms (.refl _))
    · exact .refl _
  exact alike_frame (ViewCase.owned_unionPieces.alike_flatMap v _)
    (ViewCase.owned_narrowingPieces.alike_flatMap v _)
    (ViewCase.owned_namePieces.alike_flatMap v _) hchildren
    (ViewCase.owned_pointerPieces.alike_flatMap v _)
    (ViewCase.owned_conversionPieces.alike_flatMap v _)

end ViewPlan

/-! ### The law -/

namespace Gate

variable {α β : Type} {v : Valuation}

/-- If every attribute means its gate, what stays is what is there, without the gates. -/
theorem settled_eq_remaining {gate : α → Option Gate} {regated : Option Gate → α → β} {l : List α}
    (ha : ∀ a ∈ l, Asks (gate a)) (hv : ∀ a ∈ l, Verbatim (gate a)) :
    ((l.filter fun a => keeps v (gate a)).map fun a => regated (unread (gate a)) a) =
      (l.filter fun a => allows v (gate a)).map (regated none) := by
  have hkeeps : (l.filter fun a => keeps v (gate a)) = l.filter fun a => allows v (gate a) :=
    List.filter_congr fun a hm => keeps_eq_allows (ha a hm) (hv a hm) v
  rw [hkeeps]
  refine List.map_congr_left fun a hm => ?_
  have hl := (List.mem_filter.mp hm).1
  rw [unread_eq_none (ha a hl) (hv a hl)]

end Gate

namespace Artifact

variable {s : Schema} {kinds : List KindPlan} {view : ViewPlan} {v : Gate.Valuation}

theorem becomes_settled (h : view.hasChildren = false ∨ (view.settled v).hasChildren = true) :
    Code.Becomes v (body s kinds view)
      (body s (KindPlan.settled v kinds) (view.settled v)) := by
  have hbody (kinds : List KindPlan) (view : ViewPlan) : body s kinds view =
      allRequests (kinds.flatMap (KindPlan.pieces s) ++ view.pieces) := by
    rw [body, funext (KindPlan.code_eq s), ViewPlan.code_eq, allRequests_append,
      allRequests_flatMap]
  rw [hbody, hbody]
  refine becomes ?_ ?_
  · exact allEvery_append.mpr
      ⟨(KindPlan.gated_pieces s).allLaid_flatMap kinds, view.allLaid_pieces⟩
  · rw [allDecided_append]
    exact ((KindPlan.gated_pieces s).alike_flatMap v kinds).append (ViewPlan.alike_pieces h)

/-- Deciding the features of what is written for some kinds and a view gives what is written for
those whose attributes are true or cannot be read, under the attributes that cannot be read. If no
feature holds a backslash, those are the kinds that are there, without their gates. No line holds a
line break itself whenever the plans are those of entries of a loaded schema. -/
theorem feature_gate_law (s : Schema) (kinds : List KindPlan) (view : ViewPlan)
    (v : Gate.Valuation) (hk : ∀ k ∈ kinds, Gate.Parsed k.entry.gate)
    (hw : ∀ c ∈ view.cases, Gate.Parsed c.entry.gate) :
    (view.hasChildren = false ∨ (view.settled v).hasChildren = true →
      Code.Becomes v (body s kinds view)
        (body s (KindPlan.settled v kinds) (view.settled v))) ∧
    ((∀ k ∈ kinds, Gate.Verbatim k.entry.gate) → (∀ c ∈ view.cases, Gate.Verbatim c.entry.gate) →
      view.hasChildren = false ∨ (view.remaining v).hasChildren = true →
      Code.Becomes v (body s kinds view)
        (body s (KindPlan.remaining v kinds) (view.remaining v))) ∧
    ((∃ d, Schema.ofDraft d = .ok s) → (∀ k ∈ kinds, k.Derived s) →
      (∀ c ∈ view.cases, c.Derived s) → Unbroken s kinds view) := by
  refine ⟨becomes_settled, fun hkv hwv hc => ?_, ?_⟩
  · have hkinds : KindPlan.settled v kinds = KindPlan.remaining v kinds :=
      Gate.settled_eq_remaining (fun k hm => (hk k hm).asks) hkv
    have hview : view.settled v = view.remaining v :=
      congrArg ViewPlan.mk (Gate.settled_eq_remaining (fun c hm => (hw c hm).asks) hwv)
    rw [← hview] at hc ⊢
    rw [← hkinds]
    exact becomes_settled hc
  · rintro ⟨d, hs⟩ hkinds hcases
    exact unbroken_of_derived hs hkinds hcases

end Artifact

namespace Dialects

theorem verbatim_entries : ∀ e ∈ schema.entries, Gate.Verbatim e.gate := by
  simp [schema, modern, old, boxed, any, Gate.Verbatim]

/-- With the feature on, the text is that of three kinds without gates. -/
theorem gate_law_modern :
    solid (decideRows (fun _ => true) .keep
        (Text.lines (Code.text (Artifact.body schema kinds view)))) =
      solid (Text.lines (Code.text (Artifact.body schema
        [⟨modern.regated none, some .stored, some (.field "span")⟩, ⟨boxed, none, none⟩, anyPlan]
        ⟨[⟨modern.regated none, "item", true, .none⟩,
          ⟨any, "any", true, .variants [⟨"Item", .tuple, .payload [.box, .box]⟩]⟩]⟩))) := by
  have hs : Schema.ofDraft draft = .ok schema := Schema.ofDraft_eq_ok (by decide +kernel)
  have hgate {e : Entry} (he : e ∈ schema.entries) : Gate.Parsed e.gate :=
    (Schema.spelled_ofDraft hs e he).gate
  have hk : collect (KindPlan.ofEntry schema (Positions.analyze schema) true) schema.entries =
      .ok kinds := by decide +kernel
  have hw : collect (ViewCase.ofEntry schema (Positions.analyze schema)) schema.participating =
      .ok view.cases := by decide +kernel
  have hkinds : ∀ k ∈ kinds, k.Derived schema := by
    intro k hm
    obtain ⟨e, he, hke⟩ := exists_of_mem_collect hk hm
    exact ⟨_, _, e, he, hke⟩
  have hcases : ∀ c ∈ view.cases, c.Derived schema := by
    intro c hm
    obtain ⟨e, he, hce⟩ := exists_of_mem_collect hw hm
    exact ⟨_, e, (List.mem_filter.mp he).1, hce⟩
  have hof : (∀ k ∈ kinds, k.entry ∈ schema.entries) ∧
      ∀ c ∈ view.cases, c.entry ∈ schema.entries := by decide
  have hlaw := Artifact.feature_gate_law schema kinds view (fun _ => true)
    (fun k hm => hgate (hof.1 k hm)) (fun c hm => hgate (hof.2 c hm))
  have hlaws := hlaw.2.1 (fun k hm => verbatim_entries _ (hof.1 k hm))
    (fun c hm => verbatim_entries _ (hof.2 c hm)) (.inr (by decide))
  exact hlaws.2 (hlaw.2.2 ⟨draft, hs⟩ hkinds hcases)

end Dialects

namespace Backslash

def draft (feature : String) : Draft where
  entries := [("NodeId", .aliasOf "u32"), ("A", .definition [("x", .text "u8"),
    ("feature", .text feature)])]
  nodup := by simp

def identity : Entry :=
  { name := "NodeId", displayName := "NodeId", shape := .aliasOf (.named "u32") }

def gated (feature : String) : Entry :=
  { name := "A", displayName := "A", shape := .product [("x", .named "u8")],
    gate := some ⟨feature, false⟩ }

def schema (feature : String) : Schema := ⟨[identity, gated feature], by simp [identity, gated]⟩

def kinds (feature : String) : List KindPlan :=
  [⟨identity, none, none⟩, ⟨gated feature, some .stored, none⟩]

def view (feature : String) : ViewPlan := ⟨[⟨gated feature, "a", false, .none⟩]⟩

/-- What is written for the schema does not become what is written for the kinds that are there. -/
def Fails (feature : String) (v : Gate.Valuation) : Prop :=
  ¬ Code.Becomes v (Artifact.body (schema feature) (kinds feature) (view feature))
    (Artifact.body (schema feature) (KindPlan.remaining v (kinds feature))
      ((view feature).remaining v))

/-- An attribute whose literal does not end stays, although the feature is on. The attribute of the
other gate means the feature `a`, so that the kind stays although its own feature is off. -/
theorem gate_law_fails :
    (Schema.ofDraft (draft "a\\") = .ok (schema "a\\") ∧
      collect (KindPlan.ofEntry (schema "a\\") (Positions.analyze (schema "a\\")) false)
        (schema "a\\").entries = .ok (kinds "a\\") ∧
      ViewPlan.ofSchema (schema "a\\") (Positions.analyze (schema "a\\")) = .ok (view "a\\") ∧
      Gate.parse? "a\\" = some ⟨"a\\", false⟩ ∧ (view "a\\").hasChildren = false ∧
      Fails "a\\" fun _ => true) ∧
    Gate.parse? "\\x61" = some ⟨"\\x61", false⟩ ∧ Fails "\\x61" (· == "a") := by
  refine ⟨⟨Schema.ofDraft_eq_ok (by decide +kernel), by decide +kernel, by decide +kernel,
    by decide, by decide, fun h => ?_⟩, by decide, fun h => ?_⟩
  · exact absurd h.1 (by decide +kernel)
  · exact absurd h.1 (by decide +kernel)

end Backslash

end TreeSchema
