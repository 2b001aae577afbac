import TreeSchema.Proofs.Configuration
import TreeSchema.Proofs.Methods
import TreeSchema.Proofs.Scope

/-!
# The names that an artifact declares

An artifact brings names into scope by its imports, by the types of its entries and by those of the
view. They are read from the lines at the left margin, once the features are decided. Most of them
are kept apart by some check; this module says which are not.
-/

namespace TreeSchema

open Checked Source Piece

/-! ### Reading declarations -/

namespace Source

/-- What stands between two texts. -/
def between? (start stop : String) (cs : List Char) : Option (List Char) :=
  (start.toList.isPrefixOf? cs).bind stop.toList.isSuffixOf?

theorem between?_eq_some_iff {start stop : String} {cs x : List Char} :
    between? start stop cs = some x ↔ cs = start.toList ++ x ++ stop.toList := by
  simp only [between?, Option.bind_eq_some_iff, List.isPrefixOf?_eq_some_iff_append_eq,
    List.isSuffixOf?_eq_some_iff_append_eq]
  constructor
  · rintro ⟨rest, rfl, rfl⟩
    simp
  · rintro rfl
    exact ⟨x ++ stop.toList, by simp⟩

/-- The name that a line brings into scope: the last part of a path that it uses, or the name of the
type that it starts to define. -/
def declaredName? (row : List Char) : Option String :=
  ((between? "use " ";" row).map fun path => Name.lastSegment (String.ofList path)).or
    (["pub type ", "pub struct ", "pub enum "].findSome? fun start =>
      (start.toList.isPrefixOf? row).map fun rest => String.ofList (rest.takeWhile Name.isWordPart))

def declaredNames (rows : List (List Char)) : List String := rows.filterMap declaredName?

/-- Uses and definitions start with letters that no other line starts with. -/
theorem declaredName?_cons {c : Char} (hu : c ≠ 'u') (hp : c ≠ 'p') (cs : List Char) :
    declaredName? (c :: cs) = none := by
  simp [declaredName?, between?, List.isPrefixOf?, Ne.symm hu, Ne.symm hp]

theorem declaredName?_use (path : String) :
    declaredName? ("use " ++ path ++ ";").toList = some (Name.lastSegment path) := by
  have hbetween : between? "use " ";" ("use " ++ path ++ ";").toList = some path.toList :=
    between?_eq_some_iff.mpr (by simp)
  rw [declaredName?, hbetween]
  simp

/-- A definition declares the word after its first two. -/
theorem declaredName?_define {start name rest : String}
    (hs : start ∈ ["pub type ", "pub struct ", "pub enum "])
    (hname : name.toList.all Name.isWordPart = true)
    (hrest : rest.toList.head?.all (fun c => !Name.isWordPart c) = true) :
    declaredName? (start ++ (name ++ rest)).toList = some name := by
  have htake : (name.toList ++ rest.toList).takeWhile Name.isWordPart = name.toList := by
    rw [List.takeWhile_append_of_pos (List.all_eq_true.mp hname)]
    cases hcs : rest.toList with
    | nil => simp
    | cons c cs =>
      rw [hcs] at hrest
      rw [List.takeWhile_cons_of_neg (by simpa using hrest), List.append_nil]
  simp only [List.mem_cons, List.not_mem_nil, or_false] at hs
  rcases hs with rfl | rfl | rfl <;>
    simp [declaredName?, between?, List.isPrefixOf?, htake]

/-- A text that starts with none of the letters that a use or a definition starts with. -/
def Silent (text : String) : Prop := text.toList.head?.any (fun c => c != 'u' && c != 'p') = true

theorem Silent.declaredName? {text : String} (h : Silent text) :
    declaredName? text.toList = none := by
  obtain ⟨c, hc, hne⟩ := (Option.any_eq_true _ _).mp h
  obtain ⟨cs, hcs⟩ := List.head?_eq_some_iff.mp hc
  simp only [Bool.and_eq_true, bne_iff_ne] at hne
  rw [hcs]
  exact declaredName?_cons hne.1 hne.2 cs

/-- Lines further in declare nothing. -/
theorem declaredNames_inner (cs : List Piece) (depth : ℕ) :
    declaredNames (allRows (depth + 1) cs) = [] := by
  rw [declaredNames, List.filterMap_eq_nil_iff]
  intro row hrow
  obtain ⟨d, hd, text, rfl⟩ := exists_row_of_mem_allRows cs (depth + 1) hrow
  unfold Writer.row
  split
  · rfl
  · obtain ⟨n, hn⟩ : ∃ n, 4 * d = n + 1 := ⟨4 * d - 1, by omega⟩
    rw [hn, List.replicate_succ, List.cons_append]
    exact declaredName?_cons (by decide) (by decide) _

theorem declaredNames_solid (rows : List (List Char)) :
    declaredNames (solid rows) = declaredNames rows := by
  rw [declaredNames, solid, List.filterMap_filter]
  refine List.filterMap_congr fun row _ => ?_
  cases row with
  | nil => rfl
  | cons c cs => rfl

end Source

namespace Piece

variable {cs ds : List Piece} {names names' : List String}

/-- Code whose lines at the left margin bring some names into scope. -/
def Declares (cs : List Piece) (names : List String) : Prop := declaredNames (allRows 0 cs) = names

theorem Declares.append (h : Declares cs names) (h' : Declares ds names') :
    Declares (cs ++ ds) (names ++ names') := by
  rw [Declares, allRows_append, declaredNames, List.filterMap_append]
  exact congrArg₂ _ h h'

theorem Declares.append_silent (h : Declares cs names) (h' : Declares ds []) :
    Declares (cs ++ ds) names := by
  rw [← List.append_nil names]
  exact h.append h'

theorem declares_flatMap {α : Type} {l : List α} {f : α → List Piece} {g : α → List String}
    (h : ∀ a ∈ l, Declares (f a) (g a)) : Declares (l.flatMap f) (l.flatMap g) := by
  induction l with
  | nil => rfl
  | cons a l ih =>
    obtain ⟨hfirst, hrest⟩ := List.forall_mem_cons.mp h
    exact hfirst.append (ih hrest)

theorem declares_blank : Declares [.blank] [] := rfl

theorem row_zero (text : String) : Writer.row 0 text = text.toList := by
  unfold Writer.row
  split
  · next hempty => rw [String.isEmpty_iff.mp hempty]; rfl
  · rfl

theorem declares_line (text : String) :
    Declares [.line text] (declaredName? text.toList).toList := by
  simp only [Declares, allRows, rows, List.append_nil, row_zero, declaredNames]
  cases h : declaredName? text.toList <;> simp [h]

theorem declares_braces (header : String) (body : List Piece) :
    Declares [.braces header body] (declaredName? (header ++ " \x7b").toList).toList := by
  have hbody := declaredNames_inner body 0
  have hend : declaredName? "\x7d".toList = none := by decide
  simp only [declaredNames] at hbody
  simp only [Declares, allRows, rows, Piece.braces, List.append_nil, row_zero, declaredNames,
    List.cons_append, List.filterMap_append, List.filterMap_cons, hbody, hend]
  cases declaredName? (header ++ " \x7b").toList <;> rfl

theorem Silent.declares_line {text : String} (h : Silent text) : Declares [.line text] [] := by
  have hline := Piece.declares_line text
  rwa [h.declaredName?] at hline

theorem Silent.declares_braces {header : String} (h : Silent (header ++ " \x7b"))
    (body : List Piece) : Declares [.braces header body] [] := by
  have hbraces := Piece.declares_braces header body
  rwa [h.declaredName?] at hbraces

/-- Conditions declare nothing. -/
theorem Declares.guarded (h : Declares cs names) (gate : Option Gate) :
    Declares [.guarded gate cs] names := by
  cases gate with
  | none => simpa [Declares, rows] using h
  | some g =>
    obtain ⟨rest, hrest⟩ := toList_cfgAttribute g
    have hattribute : declaredName? g.cfgAttribute.toList = none := by
      rw [hrest]
      exact declaredName?_cons (by decide) (by decide) rest
    simpa [Declares, rows, row_zero, declaredNames, hattribute] using h

theorem Alike.declares (h : Alike cs ds) (hd : Declares ds names) : Declares cs names := by
  rw [Declares, ← declaredNames_solid, h 0, declaredNames_solid]
  exact hd

/-- Of code that declares nothing, nothing remains that would. -/
theorem Declares.decided (h : Declares cs []) (v : Gate.Valuation) :
    Declares (allDecided v cs) [] := by
  have hsub := (allRows_decided_sublist v cs 0).filterMap declaredName?
  rw [show (allRows 0 cs).filterMap declaredName? = [] from h] at hsub
  exact List.sublist_nil.mp hsub

end Piece

/-! ### What the pieces declare -/

/-- An entry declares the name that it is written under. -/
theorem Entry.declares_definitionPieces (s : Schema) {e : Entry}
    (h : Name.isIdent e.displayName = true) : Declares (e.definitionPieces s) [e.displayName] := by
  have hword := Name.isWordPart_of_isIdent h
  have hderives : Declares [.line e.derivesText] [] :=
    Silent.declares_line (by simp [Silent, derivesText])
  have hblock {start : String} (hs : start ∈ ["pub type ", "pub struct ", "pub enum "])
      (body : List Piece) :
      Declares [.line e.derivesText, .braces (start ++ e.displayName) body] [e.displayName] := by
    have hbraces := declares_braces (start ++ e.displayName) body
    rw [String.append_assoc, declaredName?_define hs hword (by decide)] at hbraces
    exact hderives.append hbraces
  unfold definitionPieces
  split
  · next target _ =>
    have hline := declares_line
      ("pub type " ++ (e.displayName ++ (" = " ++ (s.renderType target ++ ";"))))
    rw [declaredName?_define (by simp) hword (by simp; decide)] at hline
    simpa only [String.append_assoc, Option.toList_some] using hline
  · exact hblock (by simp) _
  · exact hblock (by simp) _

namespace KindPlan

theorem declares_item {k : KindPlan} {cs : List Piece} {names : List String}
    (h : Declares cs names) : Declares (k.item cs) names :=
  (h.guarded k.entry.gate).append_silent declares_blank

theorem declares_pieces (s : Schema) {k : KindPlan}
    (h : Name.isIdent k.entry.displayName = true) :
    Declares (k.pieces s) [k.entry.displayName] := by
  have hidentity (i : IdentityPlan) : Declares (k.item (i.pieces k.entry)) [] :=
    declares_item (Silent.declares_braces (by simp [Silent]) _)
  have hposition (q : PositionPlan) : Declares (k.item (q.pieces k.entry)) [] :=
    declares_item (Silent.declares_braces (by simp [Silent]) _)
  have haccessors : Declares ((k.identity.elim [] fun i => k.item (i.pieces k.entry)) ++
      (k.position.elim [] fun q => k.item (q.pieces k.entry))) [] := by
    refine Declares.append_silent ?_ ?_
    · cases k.identity with
      | none => rfl
      | some i => exact hidentity i
    · cases k.position with
      | none => rfl
      | some q => exact hposition q
  refine (declares_item (k.entry.declares_definitionPieces s h)).append_silent ?_
  split
  · rfl
  · exact haccessors

/-- Of some kinds, those that stay declare their names. -/
theorem declares_decided (s : Schema) (v : Gate.Valuation) {kinds : List KindPlan}
    (h : ∀ k ∈ kinds, Name.isIdent k.entry.displayName = true) :
    Declares (allDecided v (kinds.flatMap (KindPlan.pieces s)))
      (((kinds.map KindPlan.entry).filter fun e => Gate.keeps v e.gate).map Entry.displayName) := by
  have halike := (gated_pieces s).alike_flatMap v kinds
  refine halike.declares ?_
  have hnames : ((kinds.map KindPlan.entry).filter fun e => Gate.keeps v e.gate).map
      Entry.displayName = ((kinds.filter fun k => Gate.keeps v k.entry.gate).map
        fun k => k.regated (Gate.unread k.entry.gate)).flatMap fun k => [k.entry.displayName] := by
    rw [List.filter_map, List.map_map, ← List.map_eq_flatMap, List.map_map]
    rfl
  rw [hnames]
  refine declares_flatMap (List.forall_mem_map.mpr fun k hk => ?_)
  exact declares_pieces s (h k (List.mem_filter.mp hk).1)

end KindPlan

namespace ViewPlan

theorem declares_frame {cases narrowing names children pointers conversions : List Piece}
    (h : Declares conversions []) :
    Declares (frame cases narrowing names children pointers conversions)
      [Fixed.unionName, Fixed.viewName] := by
  have hderives : Declares [.line derivesText] [] :=
    Silent.declares_line (by simp [Silent, derivesText])
  have hunion : Declares [.braces "pub enum NodeKind<'a>" cases] [Fixed.unionName] :=
    declares_braces _ _
  have hstruct : Declares [.braces "pub struct Node<'a>" [.line "pub id: NodeId,",
      .line "pub kind: NodeKind<'a>,", .line "pub span: Span,"]] [Fixed.viewName] :=
    declares_braces _ _
  have himpl : Declares [.braces "impl<'a> Node<'a>"
      (methodPieces narrowing names children pointers)] [] :=
    Silent.declares_braces (by simp [Silent]) _
  have hfirst := hderives.append (hunion.append_silent declares_blank)
  have hsecond := hderives.append (hstruct.append_silent declares_blank)
  exact ((hfirst.append hsecond).append_silent (himpl.append_silent declares_blank)).append_silent h

/-- The view declares the same names under every setting of the features. -/
theorem declares_decided (view : ViewPlan) (v : Gate.Valuation) :
    Declares (allDecided v view.pieces) [Fixed.unionName, Fixed.viewName] := by
  have hconversion (c : ViewCase) : Declares c.conversionPieces [] :=
    Declares.append_silent (Declares.guarded (Silent.declares_braces (by simp [Silent]) _) _)
      declares_blank
  have hconversions : Declares (view.cases.flatMap ViewCase.conversionPieces) [] := by
    have hall := declares_flatMap fun c (_ : c ∈ view.cases) => hconversion c
    rwa [List.flatMap_eq_nil_iff.mpr fun _ _ => rfl] at hall
  rw [pieces, allDecided_frame]
  exact declares_frame (hconversions.decided v)

end ViewPlan

namespace Artifact

variable {s : Schema} {c : Config} {p : Plan}

theorem declares_headerPieces (path : String) : Declares (headerPieces path) [] := by
  have hfirst : Declares [.line ("// This file is generated by astgen from " ++ path ++ ".")] [] :=
    Silent.declares_line (by simp [Silent])
  have hsecond : Declares [.line "// Do not make modifications to this file directly."] [] :=
    Silent.declares_line (by simp [Silent])
  exact hfirst.append_silent (hsecond.append_silent declares_blank)

theorem declares_importPieces :
    Declares (importPieces (imports s c)) ((importedPaths s c).map Name.lastSegment) := by
  have huse (path : String) :
      Declares [.line ("use " ++ path ++ ";")] [Name.lastSegment path] := by
    have hline := declares_line ("use " ++ path ++ ";")
    rwa [declaredName?_use] at hline
  rw [importPieces, importedPaths, List.map_append, List.map_eq_flatMap, List.map_eq_flatMap]
  exact (declares_flatMap fun path _ => huse path).append
    ((huse "std::ptr::NonNull").append_silent declares_blank)

theorem allBare_front (path : String) (imports : List String) :
    AllBare (headerPieces path ++ importPieces imports) := by
  have hheader : AllBare (headerPieces path) :=
    ⟨free_append (by decide), free_of_last (by decide), trivial, trivial⟩
  refine allEvery_append.mpr ⟨hheader, allEvery_append.mpr ⟨?_, ?_⟩⟩
  · exact allEvery_map fun path _ => free_append (by decide)
  · exact ⟨free_of_last (by decide), trivial, trivial⟩

/-- The names that some entries, the imports and the view bring into scope. -/
def namesBeside (s : Schema) (c : Config) (entries : List Entry) : List String :=
  (importedPaths s c).map Name.lastSegment ++
    (entries.map Entry.displayName ++ [Fixed.unionName, Fixed.viewName])

/-- The names in scope under a setting of the features: the imports, the entries that are there, and
the types of the view. -/
def scopeNames (s : Schema) (c : Config) (v : Gate.Valuation) : List String :=
  namesBeside s c (s.entries.filter (·.enabled v))

/-- Plans are for entries of the schema, kind by kind. -/
theorem map_entry_of_plan (hp : plan s c = .ok p) :
    p.kinds.map KindPlan.entry = s.entries ∧ p.view.cases.map ViewCase.entry = s.participating := by
  obtain ⟨-, -, hkinds, hview, -⟩ := plan_eq_ok_iff.mp hp
  exact ⟨map_of_collect (fun _ _ hk => (KindPlan.ofEntry_eq_ok_iff.mp hk).1) hkinds,
    ViewPlan.map_entry_of_collect (ViewPlan.cases_of_ofSchema hview)⟩

/-- The whole artifact as a tree. -/
def pieces (s : Schema) (c : Config) (p : Plan) : List Piece :=
  headerPieces c.schemaPath ++ importPieces (imports s c) ++
    (p.kinds.flatMap (KindPlan.pieces s) ++ p.view.pieces)

theorem code_eq (hp : plan s c = .ok p) : code s c.schemaPath p = allRequests (pieces s c p) := by
  obtain ⟨-, -, -, -, himports⟩ := plan_eq_ok_iff.mp hp
  simp only [code, pieces, himports, header_pieces, importLines_pieces, ViewPlan.code_eq,
    funext (KindPlan.code_eq s), allRequests_append, allRequests_flatMap, List.append_assoc]

theorem allLaid_pieces (s : Schema) (c : Config) (p : Plan) : AllLaid (pieces s c p) :=
  allEvery_append.mpr ⟨(allBare_front c.schemaPath (imports s c)).allLaid, allEvery_append.mpr
    ⟨(KindPlan.gated_pieces s).allLaid_flatMap p.kinds, p.view.allLaid_pieces⟩⟩

/-- The names that are declared once the features are decided. -/
theorem declaredNames_decided {d : Draft} (hs : Schema.ofDraft d = .ok s) (hp : plan s c = .ok p)
    (v : Gate.Valuation) :
    declaredNames (decideRows v .keep (Code.rows 0 (code s c.schemaPath p))) =
      namesBeside s c (s.entries.filter fun e => Gate.keeps v e.gate) := by
  have hdecided := decideRows_allRows v (pieces s c p) 0 (allLaid_pieces s c p) []
  simp only [List.append_nil, decideRows] at hdecided
  rw [code_eq hp, rows_allRequests, hdecided, pieces, allDecided_append,
    (allBare_front c.schemaPath (imports s c)).allDecided_eq, allDecided_append]
  obtain ⟨hkinds, -⟩ := map_entry_of_plan hp
  have hnames : Declares (allDecided v (p.kinds.flatMap (KindPlan.pieces s)))
      ((s.entries.filter fun e => Gate.keeps v e.gate).map Entry.displayName) := by
    rw [← hkinds]
    refine KindPlan.declares_decided s v fun k hk => ?_
    exact (Schema.loaded_ofDraft hs _ (hkinds ▸ List.mem_map_of_mem hk)).display
  exact ((declares_headerPieces c.schemaPath).append declares_importPieces).append
    (hnames.append (p.view.declares_decided v))

/-! ### Names that are kept apart -/

theorem map_lastSegment_importedPaths :
    (importedPaths s c).map Name.lastSegment = importedNames s c ++ ["NonNull"] := by
  have hlast : Name.lastSegment "std::ptr::NonNull" = "NonNull" := by decide
  rw [importedPaths, List.map_append, List.map_singleton, hlast, importedNames]

/-- No import has the name of an entry. -/
theorem displayName_ne_of_mem_importedNames {n : String} (hn : n ∈ importedNames s c) {e : Entry}
    (he : e ∈ s.entries) : e.displayName ≠ n := by
  rintro rfl
  obtain ⟨path, hpath, hlast⟩ := List.mem_map.mp hn
  have hnone := (mem_imports.mp hpath).2
  rw [List.isEmpty_iff, hlast] at hnone
  unfold Schema.resolve at hnone
  split at hnone
  · cases hnone
  · exact List.filter_eq_nil_iff.mp hnone e he (by simp)

/-- The names of the entries that are there differ from each other and from those of the view. -/
theorem nodup_entryNames (hp : plan s c = .ok p) (v : Gate.Valuation) :
    ((s.entries.filter (·.enabled v)).map Entry.displayName ++
      [Fixed.unionName, Fixed.viewName]).Nodup := by
  obtain ⟨hcheck, -, -, hview, -⟩ := plan_eq_ok_iff.mp hp
  have hnames := (Schema.check_eq_ok_iff.mp hcheck).1
  have hreserved := (ViewPlan.ofSchema_eq_ok_iff.mp hview).1
  simp only [ViewPlan.checkReserved, forEach_eq_ok_iff, require_eq_ok_iff] at hreserved
  rw [List.nodup_append']
  refine ⟨(s.nodup_entries.filter _).map_on ?_, by decide, ?_⟩
  · intro a ha b hb hab
    obtain ⟨ha, hav⟩ := List.mem_filter.mp ha
    obtain ⟨hb, hbv⟩ := List.mem_filter.mp hb
    exact Schema.eq_of_displayName_eq hnames ha hb hab hav hbv
  · intro n hn hview
    obtain ⟨e, he, rfl⟩ := List.mem_map.mp hn
    have hfree := hreserved e (List.mem_filter.mp he).1
    simp only [List.mem_cons, List.not_mem_nil, or_false] at hview
    rcases hview with heq | heq <;> simp [ViewPlan.isReserved, heq] at hfree

/-- Under one setting, names meet only through the imports and the pointer type. -/
theorem nodup_scopeNames_iff (hp : plan s c = .ok p) (v : Gate.Valuation) :
    (scopeNames s c v).Nodup ↔ (importedNames s c).Nodup ∧
      (∀ n ∈ importedNames s c, n ∉ ["NonNull", Fixed.unionName, Fixed.viewName]) ∧
      ∀ e ∈ s.entries, e.enabled v = true → e.displayName ≠ "NonNull" := by
  rw [scopeNames, namesBeside, map_lastSegment_importedPaths, List.nodup_append',
    List.nodup_append']
  constructor
  · rintro ⟨⟨himports, -, hpointer⟩, -, hdisjoint⟩
    refine ⟨himports, fun n hn hown => ?_, fun e he hv heq => ?_⟩
    · rcases List.mem_cons.mp hown with rfl | hview
      · exact hpointer hn (List.mem_singleton.mpr rfl)
      · exact hdisjoint (List.mem_append_left _ hn) (List.mem_append_right _ hview)
    · have hentry := List.mem_map.mpr ⟨e, List.mem_filter.mpr ⟨he, hv⟩, heq⟩
      exact hdisjoint (List.mem_append_right _ (List.mem_singleton.mpr rfl))
        (List.mem_append_left _ hentry)
  · rintro ⟨himports, hown, hentries⟩
    refine ⟨⟨himports, List.nodup_singleton _, fun n hn hpointer => ?_⟩, nodup_entryNames hp v, ?_⟩
    · exact hown n hn (List.mem_cons.mpr (.inl (List.mem_singleton.mp hpointer)))
    -- An import or the pointer type against an entry or a type of the view.
    · intro n hfront hrest
      rcases List.mem_append.mp hfront with hn | hpointer
      · rcases List.mem_append.mp hrest with hentry | hview
        · obtain ⟨e, he, hname⟩ := List.mem_map.mp hentry
          exact displayName_ne_of_mem_importedNames hn (List.mem_filter.mp he).1 hname
        · exact hown n hn (List.mem_cons_of_mem _ hview)
      · obtain rfl := List.mem_singleton.mp hpointer
        rcases List.mem_append.mp hrest with hentry | hview
        · obtain ⟨e, he, hname⟩ := List.mem_map.mp hentry
          obtain ⟨he, hv⟩ := List.mem_filter.mp he
          exact hentries e he hv hname
        · revert hview
          decide

/-- Whenever an artifact is written, its names differ under every setting of the features just when
the imports differ in their last parts, none of them is called like the pointer type or a type of
the view, and no entry is written under the name of the pointer type. The text declares the names of
the entries that stay in it once the features are decided; if no feature holds a backslash, those
are the names that are there. -/
theorem scope_names_distinct_iff {text : String} (h : generate s c = .ok text) :
    ∃ p, plan s c = .ok p ∧ text = Code.text (code s c.schemaPath p) ∧
      ((∀ v, (scopeNames s c v).Nodup) ↔ (importedNames s c).Nodup ∧
        (∀ n ∈ importedNames s c, n ∉ ["NonNull", Fixed.unionName, Fixed.viewName]) ∧
        ∀ e ∈ s.entries, e.displayName ≠ "NonNull") ∧
      ((∃ d, Schema.ofDraft d = .ok s) → ∀ v,
        declaredNames (decideRows v .keep (Code.rows 0 (code s c.schemaPath p))) =
          namesBeside s c (s.entries.filter fun e => Gate.keeps v e.gate) ∧
        ((∀ e ∈ s.entries, Gate.Verbatim e.gate) →
          declaredNames (decideRows v .keep (Code.rows 0 (code s c.schemaPath p))) =
            scopeNames s c v)) := by
  obtain ⟨p, hp, rfl⟩ := map_eq_ok_iff.mp h
  refine ⟨p, hp, rfl, ?_, fun ⟨d, hs⟩ v => ?_⟩
  rotate_left
  · have hread := declaredNames_decided hs hp v
    refine ⟨hread, fun hverbatim => ?_⟩
    have hkept : (s.entries.filter fun e => Gate.keeps v e.gate) = s.entries.filter (·.enabled v) :=
      List.filter_congr fun e he =>
        Gate.keeps_eq_allows (Schema.spelled_ofDraft hs e he).gate.asks (hverbatim e he) v
    rw [hread, hkept, scopeNames]
  constructor
  · intro hall
    obtain ⟨himports, hown, -⟩ := (nodup_scopeNames_iff hp fun _ => true).mp (hall _)
    refine ⟨himports, hown, fun e he => ?_⟩
    obtain ⟨v, hv⟩ := Gate.exists_allows e.gate
    exact ((nodup_scopeNames_iff hp v).mp (hall v)).2.2 e he hv
  · rintro ⟨himports, hown, hentries⟩ v
    exact (nodup_scopeNames_iff hp v).mpr ⟨himports, hown, fun e he _ => hentries e he⟩

end Artifact

/-- A draft that gives an artifact in which a name is declared more than once. -/
def Draft.Repeats (d : Draft) (c : Config) (n : String) : Prop :=
  ∃ s text, Schema.ofDraft d = .ok s ∧ Artifact.generate s c = .ok text ∧
    ∀ v, 1 < (Artifact.scopeNames s c v).count n

namespace Repeated

/-! Drafts of the identity type and one product. -/

def draft (name : String) (h : "NodeId" ≠ name) : Draft where
  entries := [("NodeId", .aliasOf "u32"), (name, .definition [("x", .text "u8")])]
  nodup := by simpa using h

def schema (name : String) (h : "NodeId" ≠ name) : Schema where
  entries := [
    { name := "NodeId", displayName := "NodeId", shape := .aliasOf (.named "u32") },
    { name := name, displayName := name, shape := .product [("x", .named "u8")] }]
  nodup := by simpa using h

/-- What is left to evaluate: the entries, the success of the plan, and the names. -/
theorem repeats_of_count {name : String} (h : "NodeId" ≠ name) {c : Config} {n : String}
    (hs : Schema.parseEntries (draft name h).entries = .ok (schema name h).entries)
    (hp : (Artifact.plan (schema name h) c).map (fun _ => ()) = .ok ())
    (hn : 1 < ((Artifact.importedPaths (schema name h) c).map Name.lastSegment ++
      ["NodeId", name, Fixed.unionName, Fixed.viewName]).count n) :
    (draft name h).Repeats c n := by
  obtain ⟨p, hplan, -⟩ := map_eq_ok_iff.mp hp
  exact ⟨schema name h, _, Schema.ofDraft_eq_ok hs, map_eq_ok_iff.mpr ⟨p, hplan, rfl⟩, fun v => hn⟩

/-- The product has the name of the pointer type, two imports have one name, or an import has the
name of the view or of the pointer type. -/
theorem names_repeat :
    (draft "NonNull" (by decide)).Repeats {} "NonNull" ∧
      (draft "A" (by decide)).Repeats
        { imports := ["crate::HasId", "pxp_span::Span", "other::Span"] } "Span" ∧
      (draft "A" (by decide)).Repeats
        { imports := ["crate::HasId", "pxp_span::Span", "other::Node"] } "Node" ∧
      (draft "A" (by decide)).Repeats
        { imports := ["crate::HasId", "pxp_span::Span", "std::ptr::NonNull"] } "NonNull" := by
  refine ⟨?_, ?_, ?_, ?_⟩ <;>
    exact repeats_of_count _ (by decide +kernel) (by decide +kernel) (by decide +kernel)

end Repeated

namespace Dialects

/-- Two entries under one name are never there together, and the imports have other names. -/
theorem scope_names_dialects :
    (∀ v, (Artifact.scopeNames schema imported v).Nodup) ∧
      ∃ p, Artifact.plan schema imported = .ok p ∧ ∀ v,
        declaredNames (decideRows v .keep (Code.rows 0 (Artifact.code schema "meta/ast.yaml" p))) =
          Artifact.scopeNames schema imported v := by
  have hs : Schema.ofDraft draft = .ok schema := Schema.ofDraft_eq_ok (by decide +kernel)
  have hplan : (Artifact.plan schema imported).map (fun _ => ()) = .ok () := by decide +kernel
  obtain ⟨q, hq, -⟩ := map_eq_ok_iff.mp hplan
  obtain ⟨p, hp, -, hdistinct, hdeclared⟩ :=
    Artifact.scope_names_distinct_iff (map_eq_ok_iff.mpr ⟨q, hq, rfl⟩)
  exact ⟨hdistinct.mpr (by decide +kernel), p, hp,
    fun v => (hdeclared ⟨draft, hs⟩ v).2 verbatim_entries⟩

end Dialects

end TreeSchema
