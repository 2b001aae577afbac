import TreeSchema.Proofs.Order
import TreeSchema.Proofs.Tables
import TreeSchema.Proofs.Schema.GateChecks

/-!
# The methods of the view

Every kind of the view gets two methods beside those that the view has anyway, under names that
come from its written name. Different names can give the same methods, and kinds may be written
under one name if they are never there together. Still, no two methods that are there at the same
time have one name.
-/

namespace TreeSchema

open Checked Source Piece

/-! ### Reading methods -/

namespace Source

/-- The name of the function whose header a line is. -/
def functionName? (row : List Char) : Option String :=
  ("pub fn ".toList.isPrefixOf? (row.dropWhile (· == ' '))).map fun rest =>
    String.ofList (rest.takeWhile (· != '('))

theorem functionName?_row {text name : String} {rest : List Char}
    (h : text.toList = "pub fn ".toList ++ (name.toList ++ '(' :: rest)) (hname : '(' ∉ name.toList)
    (depth : ℕ) : functionName? (Writer.row depth text) = some name := by
  have hstart : (Writer.row depth text).dropWhile (· == ' ') =
      "pub fn ".toList ++ (name.toList ++ '(' :: rest) := by
    rw [dropWhile_row, h]
    rfl
  have hrest := List.isPrefixOf?_eq_some_iff_append_eq.mpr hstart.symm
  have htake : (name.toList ++ '(' :: rest).takeWhile (· != '(') = name.toList := by
    rw [List.takeWhile_append_of_pos]
    · simp
    · intro c hc
      simpa using fun e : c = '(' => hname (e ▸ hc)
  rw [functionName?, hrest, Option.map_some, htake, String.ofList_toList]

/-- The names of the methods of the view, one for each item of its block. -/
def methodNames? (rows : List (List Char)) : Option (List (Option String)) :=
  (Tables.block Tables.methodsOfView (items rows)).map fun l => l.map fun x => functionName? x.text

end Source

namespace Entry

/-- The methods of the view for one kind. -/
def methodNames (e : Entry) : List String :=
  ["as_" ++ Name.snakeCase e.displayName, "is_" ++ Name.snakeCase e.displayName]

/-- The items of the view with these methods, under any gate. -/
theorem functionName?_items {e : Entry} (h : Name.isIdent e.displayName = true)
    (gate : Option Gate) :
    [functionName? (Tables.asItem gate e).text, functionName? (Tables.isItem gate e).text] =
      e.methodNames.map some := by
  have hword := List.all_eq_true.mp (Name.isWordPart_snakeCase h)
  have hname : '(' ∉ (Name.snakeCase e.displayName).toList := by
    intro hc
    exact absurd (hword _ hc) (by decide)
  have has : functionName? (Writer.row 1 ("pub fn as_" ++ Name.snakeCase e.displayName ++
      "(&self) -> Option<&'a " ++ e.displayName ++ "> \x7b")) =
      some ("as_" ++ Name.snakeCase e.displayName) :=
    functionName?_row (by simp; rfl) (by simpa using hname) 1
  have his : functionName? (Writer.row 1 ("pub fn is_" ++ Name.snakeCase e.displayName ++
      "(&self) -> bool \x7b")) = some ("is_" ++ Name.snakeCase e.displayName) :=
    functionName?_row (by simp; rfl) (by simpa using hname) 1
  rw [Tables.asItem, Tables.isItem, gatedItem, gatedItem, has, his]
  rfl

end Entry

namespace ViewPlan

variable {s : Schema} {p : Positions} {view : ViewPlan}

/-- The methods of a view over some kinds. -/
def methodNames (kinds : List Entry) : List String :=
  "new" :: (kinds.flatMap Entry.methodNames ++ ["name", "children", "as_ptr"])

theorem functionNames_methodItems {kinds : List Entry} {gate : Entry → Option Gate}
    {names children pointers : List (List Char)}
    (h : ∀ e ∈ kinds, Name.isIdent e.displayName = true) :
    (Tables.methodItems names children pointers (kinds.flatMap fun e =>
        [Tables.asItem (gate e) e, Tables.isItem (gate e) e])).map
      (fun x => functionName? x.text) = (methodNames kinds).map some := by
  have hkinds : (kinds.flatMap fun e =>
        [Tables.asItem (gate e) e, Tables.isItem (gate e) e]).map
      (fun x => functionName? x.text) = (kinds.flatMap Entry.methodNames).map some := by
    rw [List.map_flatMap, List.map_flatMap]
    exact List.flatMap_congr fun e he => Entry.functionName?_items (h e he) (gate e)
  simp only [Tables.methodItems, methodNames, List.map_append, List.map_cons, hkinds]
  rfl

/-- The methods that are read once the features are decided are those of the kinds that stay. -/
theorem methodNames?_decided {d : Draft} (hs : Schema.ofDraft d = .ok s)
    (h : ofSchema s p = .ok view) (v : Gate.Valuation) :
    methodNames? (decideRows v .keep (Code.rows 0 view.code)) =
      some ((methodNames (s.participating.filter fun e => Gate.keeps v e.gate)).map some) := by
  have hnames : ∀ e ∈ s.participating.filter fun e => Gate.keeps v e.gate,
      Name.isIdent e.displayName = true := fun e he =>
    (Schema.loaded_ofDraft hs e (List.mem_filter.mp (List.mem_filter.mp he).1).1).display
  have hplanned := planned_of_ofSchema h
  have hconversions := (ViewCase.lists_conversionPieces s p).decided_flatMap v hplanned
  have hmethods := (ViewCase.lists_narrowingPieces s p).decided_flatMap v hplanned
  rw [map_entry_of_collect (cases_of_ofSchema h)] at hmethods
  rw [methodNames?, decideRows_code, pieces, allDecided_frame,
    (Tables.readsAs_frame hconversions).items_eq, Tables.block_methodsOfView,
    (Tables.readsAs_methodPieces hmethods).items_eq, Option.map_some,
    functionNames_methodItems hnames]

/-! ### Different names -/

theorem as_ne_is (x y : String) : "as_" ++ x ≠ "is_" ++ y := by
  intro h
  have hlist := congrArg String.toList h
  simp at hlist

/-- The methods of a kind have a mark that the view's own methods have only in `as_ptr`. -/
theorem marked_of_mem_methodNames {e : Entry} {n : String} (h : n ∈ e.methodNames) :
    n.toList[2]? = some '_' := by
  rcases List.mem_pair.mp h with rfl | rfl
  · simp
  · simp

theorem disjoint_methodNames {a b : Entry}
    (h : Name.snakeCase a.displayName ≠ Name.snakeCase b.displayName) :
    List.Disjoint a.methodNames b.methodNames := by
  intro n ha hb
  rcases List.mem_pair.mp ha with rfl | rfl
  · rcases List.mem_pair.mp hb with heq | heq
    · exact h ((String.append_right_inj _).mp heq)
    · exact as_ne_is _ _ heq
  · rcases List.mem_pair.mp hb with heq | heq
    · exact as_ne_is _ _ heq.symm
    · exact h ((String.append_right_inj _).mp heq)

theorem nodup_methodNames {kinds : List Entry} (hn : kinds.Nodup)
    (hinj : ∀ a ∈ kinds, ∀ b ∈ kinds,
      Name.snakeCase a.displayName = Name.snakeCase b.displayName → a = b)
    (hown : ∀ e ∈ kinds, "as_" ++ Name.snakeCase e.displayName ∉ ownMethods) :
    (methodNames kinds).Nodup := by
  have hkinds : (kinds.flatMap Entry.methodNames).Nodup := by
    rw [List.nodup_flatMap]
    refine ⟨fun e _ => by simp [Entry.methodNames], ?_⟩
    refine hn.pairwise_of_forall_ne fun a ha b hb hab => disjoint_methodNames ?_
    exact fun heq => hab (hinj a ha b hb heq)
  have hmark : ∀ n ∈ kinds.flatMap Entry.methodNames, n.toList[2]? = some '_' := by
    intro n hmem
    obtain ⟨e, -, he⟩ := List.mem_flatMap.mp hmem
    exact marked_of_mem_methodNames he
  have hpointer : "as_ptr" ∉ kinds.flatMap Entry.methodNames := by
    intro hmem
    obtain ⟨e, he, hname⟩ := List.mem_flatMap.mp hmem
    rcases List.mem_pair.mp hname with heq | heq
    · exact hown e he (by simp [← heq, ownMethods])
    · exact as_ne_is "ptr" _ heq
  have hothers (n : String) (hplain : n.toList[2]? ≠ some '_') :
      n ∉ kinds.flatMap Entry.methodNames := fun hmem => hplain (hmark n hmem)
  rw [methodNames, List.nodup_cons, List.nodup_append']
  refine ⟨?_, hkinds, by decide, ?_⟩
  · rw [List.mem_append, not_or]
    exact ⟨hothers "new" (by decide), by decide⟩
  · rw [List.disjoint_comm]
    simp only [List.disjoint_cons_left, List.disjoint_nil_left, and_true]
    exact ⟨hothers "name" (by decide), hothers "children" (by decide), hpointer⟩

theorem exists_case_of_ofSchema (h : ofSchema s p = .ok view) {e : Entry}
    (he : e ∈ s.participating) :
    ∃ c ∈ view.cases, c.entry = e ∧ c.accessor = Name.snakeCase e.displayName := by
  obtain ⟨c, hc, hce⟩ := exists_mem_collect (cases_of_ofSchema h) he
  obtain ⟨children, -, rfl⟩ := map_eq_ok_iff.mp hce
  exact ⟨_, hc, rfl, rfl⟩

/-- What the check of accessors says about the kinds themselves. -/
theorem accessors_of_ofSchema (h : ofSchema s p = .ok view) :
    (∀ e ∈ s.participating, "as_" ++ Name.snakeCase e.displayName ∉ ownMethods) ∧
      ∀ a ∈ s.participating, ∀ b ∈ s.participating,
        Name.snakeCase a.displayName = Name.snakeCase b.displayName →
          a.displayName = b.displayName := by
  obtain ⟨-, -, -, haccessors⟩ := ofSchema_eq_ok_iff.mp h
  obtain ⟨hown, hconsistent⟩ :=
    (checkAccessors_eq_ok_iff (by simp [Consistent])).mp haccessors
  constructor
  · intro e he
    obtain ⟨c, hc, -, haccessor⟩ := exists_case_of_ofSchema h he
    rw [← haccessor]
    exact hown c hc
  · intro a ha b hb heq
    obtain ⟨c, hc, rfl, hca⟩ := exists_case_of_ofSchema h ha
    obtain ⟨d, hd, rfl, hdb⟩ := exists_case_of_ofSchema h hb
    exact hconsistent c hc d hd (hca.trans (heq.trans hdb.symm))

theorem nodup_methodNames_enabled (hn : s.checkNames = .ok ()) (h : ofSchema s p = .ok view)
    (v : Gate.Valuation) : (methodNames (s.participating.filter (·.enabled v))).Nodup := by
  obtain ⟨hown, hnames⟩ := accessors_of_ofSchema h
  refine nodup_methodNames ((s.nodup_entries.filter _).filter _) ?_ ?_
  · intro a ha b hb heq
    obtain ⟨ha, hav⟩ := List.mem_filter.mp ha
    obtain ⟨hb, hbv⟩ := List.mem_filter.mp hb
    exact Schema.eq_of_displayName_eq hn (List.mem_filter.mp ha).1 (List.mem_filter.mp hb).1
      (hnames a ha b hb heq) hav hbv
  · intro e he
    exact hown e (List.mem_filter.mp he).1

end ViewPlan

/-- The methods of the view that are there under a setting of the features have different names. The
text has the methods of the kinds that stay in it once the features are decided; if no feature holds
a backslash, those are the methods that are there. -/
theorem Artifact.view_methods_distinct {s : Schema} {c : Config} {text : String}
    (h : generate s c = .ok text) : ∃ p, plan s c = .ok p ∧
      text = Code.text (code s c.schemaPath p) ∧ ∀ v,
        (ViewPlan.methodNames (s.participating.filter (·.enabled v))).Nodup ∧
        ((∃ d, Schema.ofDraft d = .ok s) →
          methodNames? (decideRows v .keep (Code.rows 0 p.view.code)) = some
              ((ViewPlan.methodNames
                (s.participating.filter fun e => Gate.keeps v e.gate)).map some) ∧
          ((∀ e ∈ s.participating, Gate.Verbatim e.gate) →
            methodNames? (decideRows v .keep (Code.rows 0 p.view.code)) =
              some ((ViewPlan.methodNames (s.participating.filter (·.enabled v))).map some))) := by
  obtain ⟨p, hp, rfl⟩ := map_eq_ok_iff.mp h
  obtain ⟨hcheck, -, -, hview, -⟩ := plan_eq_ok_iff.mp hp
  have hnames := (Schema.check_eq_ok_iff.mp hcheck).1
  refine ⟨p, hp, rfl, fun v => ⟨ViewPlan.nodup_methodNames_enabled hnames hview v, ?_⟩⟩
  rintro ⟨d, hs⟩
  have hread := ViewPlan.methodNames?_decided hs hview v
  refine ⟨hread, fun hverbatim => ?_⟩
  have hkept : (s.participating.filter fun e => Gate.keeps v e.gate) =
      s.participating.filter (·.enabled v) := List.filter_congr fun e he => by
    have hasks := (Schema.spelled_ofDraft hs e (List.mem_filter.mp he).1).gate.asks
    exact Gate.keeps_eq_allows hasks (hverbatim e he) v
  rw [hread, hkept]

namespace Dialects

def methods : List String :=
  ["new", "as_item", "is_item", "as_any", "is_any", "name", "children", "as_ptr"]

def imported : Config := { imports := ["NodeId", "HasId", "Span", "Spanned"] }

/-- Two kinds under one name have the same methods; with the feature on, one of them is there. -/
theorem view_methods_modern : methods.Nodup ∧ ∃ p, Artifact.plan schema imported = .ok p ∧
    methodNames? (decideRows (fun _ => true) .keep (Code.rows 0 p.view.code)) =
      some (methods.map some) := by
  have hs : Schema.ofDraft draft = .ok schema := Schema.ofDraft_eq_ok (by decide +kernel)
  have hplan : (Artifact.plan schema imported).map (fun _ => ()) = .ok () := by decide +kernel
  obtain ⟨q, hq, -⟩ := map_eq_ok_iff.mp hplan
  obtain ⟨p, hp, -, hmethods⟩ := Artifact.view_methods_distinct (map_eq_ok_iff.mpr ⟨q, hq, rfl⟩)
  obtain ⟨hnodup, hread⟩ := hmethods fun _ => true
  have hnames : ViewPlan.methodNames (schema.participating.filter (·.enabled fun _ => true)) =
      methods := by decide +kernel
  rw [hnames] at hnodup hread
  have hverbatim : ∀ e ∈ schema.participating, Gate.Verbatim e.gate :=
    fun e he => verbatim_entries e (List.mem_filter.mp he).1
  exact ⟨hnodup, p, hp, (hread ⟨draft, hs⟩).2 hverbatim⟩

end Dialects

end TreeSchema
