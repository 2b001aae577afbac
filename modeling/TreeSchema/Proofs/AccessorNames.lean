import TreeSchema.Proofs.Name
import TreeSchema.Proofs.Planning
import TreeSchema.Proofs.Schema.WellFormed

/-!
# The names of accessors

The accessors of a kind are called after it, with small letters and an underscore before each
capital but the first character. Different kinds can come to one name that way, and are refused
then; that happens only to names that differ in capitals and underscores at most.
-/

namespace TreeSchema

open Checked

namespace Name

/-- A capital becomes small with an underscore before it. -/
def spreadChar (c : Char) : List Char := if c.isUpper then ['_', c.toLower] else [c]

/-- The first letter small, and every later capital small with an underscore before it. -/
def spread : List Char → List Char
  | [] => []
  | c :: cs => c.toLower :: cs.flatMap spreadChar

/-- A name without its underscores, in small letters. -/
def letters (s : String) : List Char := (s.toList.filter (· != '_')).map Char.toLower

/-- Small letters, digits and the underscore. -/
def isSmallPart (c : Char) : Bool := c.isLower || c.isDigit || c == '_'

/-! ### Characters -/

variable {c : Char} {cs : List Char}

theorem small_of_isWordPart (h : isWordPart c = true) :
    Text.LetterCase.small c = [c.toLower] := by
  have hrange := toNat_of_isWordPart h
  rw [Text.LetterCase.small, if_pos (by omega)]

theorem isCapital_of_isWordPart (h : isWordPart c = true) :
    Text.LetterCase.isCapital c = c.isUpper := by
  have hrange := toNat_of_isWordPart h
  rw [Text.LetterCase.isCapital, if_pos (by omega)]

theorem isSmallPart_toLower (h : isWordPart c = true) : isSmallPart c.toLower = true :=
  of_forall_wordPart (P := fun c => isSmallPart c.toLower = true) (by decide +kernel) h

theorem isWordPart_of_isWordStart (h : isWordStart c = true) : isWordPart c = true := by
  simp only [isWordStart, isWordPart, Char.isAlphanum, Bool.or_eq_true] at h ⊢
  tauto

theorem isWordStart_toLower (h : isWordStart c = true) : isWordStart c.toLower = true :=
  of_forall_wordPart (P := fun c => isWordStart c = true → isWordStart c.toLower = true)
    (by decide +kernel) (isWordPart_of_isWordStart h) h

theorem toLower_of_isUpper_eq_false (h : isWordPart c = true) (hup : c.isUpper = false) :
    c.toLower = c :=
  of_forall_wordPart (P := fun c => c.isUpper = false → c.toLower = c) (by decide +kernel) h hup

theorem toLower_eq_underscore (h : isWordPart c = true) : (c.toLower != '_') = (c != '_') :=
  of_forall_wordPart (P := fun c => (c.toLower != '_') = (c != '_')) (by decide +kernel) h

theorem isWordPart_of_isSmallPart (h : isSmallPart c = true) : isWordPart c = true := by
  have halnum : c.isAlphanum = (c.isUpper || c.isLower || c.isDigit) := rfl
  simp only [isSmallPart, isWordPart, halnum, Bool.or_eq_true] at h ⊢
  tauto

theorem isUpper_of_isSmallPart (h : isSmallPart c = true) : c.isUpper = false :=
  of_forall_wordPart (P := fun c => isSmallPart c = true → c.isUpper = false)
    (by decide +kernel) (isWordPart_of_isSmallPart h) h

theorem isSmallPart_spreadChar (h : isWordPart c = true) :
    ∀ d ∈ spreadChar c, isSmallPart d = true := by
  have hsmall := isSmallPart_toLower h
  unfold spreadChar
  split
  · simpa using ⟨by decide, hsmall⟩
  · next hup =>
    rw [toLower_of_isUpper_eq_false h (by simpa using hup)] at hsmall
    simpa using hsmall

theorem spreadChar_of_isSmallPart (h : isSmallPart c = true) : spreadChar c = [c] := by
  simp [spreadChar, isUpper_of_isSmallPart h]

theorem filter_toLower (h : isWordPart c = true) :
    [c.toLower].filter (· != '_') = ([c].filter (· != '_')).map Char.toLower := by
  rw [List.filter_singleton, List.filter_singleton, toLower_eq_underscore h]
  cases c != '_' <;> rfl

/-- An underscore that is put in is deleted again. -/
theorem filter_spreadChar (h : isWordPart c = true) :
    (spreadChar c).filter (· != '_') = ([c].filter (· != '_')).map Char.toLower := by
  rw [← filter_toLower h]
  unfold spreadChar
  split
  · rfl
  · next hup => rw [toLower_of_isUpper_eq_false h (by simpa using hup)]

/-! ### Words -/

/-- The look ahead for a capital writes the same as a look at each character on its own. -/
theorem snakeChars_eq_spread (h : ∀ c ∈ cs, isWordPart c = true) : snakeChars cs = spread cs := by
  fun_induction snakeChars cs with
  | case1 => rfl
  | case2 c => simp [spread, small_of_isWordPart (h c (by simp))]
  | case3 c d cs ih =>
    have hd : isWordPart d = true := h d (by simp)
    rw [ih fun x hx => h x (List.mem_cons_of_mem _ hx), small_of_isWordPart (h c (by simp)),
      isCapital_of_isWordPart hd]
    cases hup : d.isUpper with
    | true => simp [spread, spreadChar, hup]
    | false => simp [spread, spreadChar, hup, toLower_of_isUpper_eq_false hd hup]

theorem toList_snakeCase {s : String} (h : ∀ c ∈ s.toList, isWordPart c = true) :
    (snakeCase s).toList = spread s.toList := by
  have hkeep : s.toList.filter (fun c => !Text.isBlank c) = s.toList := by
    refine List.filter_eq_self.mpr fun c hc => ?_
    rw [not_isBlank_of_isWordPart (h c hc)]
    rfl
  rw [snakeCase, String.toList_ofList, hkeep, snakeChars_eq_spread h]

theorem isSmallPart_spread (h : ∀ c ∈ cs, isWordPart c = true) :
    ∀ c ∈ spread cs, isSmallPart c = true := by
  cases cs with
  | nil => simp [spread]
  | cons c cs =>
    obtain ⟨hc, hcs⟩ := List.forall_mem_cons.mp h
    refine List.forall_mem_cons.mpr ⟨isSmallPart_toLower hc, ?_⟩
    exact List.forall_mem_flatMap.mpr fun d hd => isSmallPart_spreadChar (hcs d hd)

theorem isWord_spread (h : isWord cs = true) : isWord (spread cs) = true := by
  have hspread := isSmallPart_spread (List.all_eq_true.mp (isWordPart_of_isWord h))
  cases cs with
  | nil => cases h
  | cons c cs =>
    simp only [isWord, Bool.and_eq_true] at h
    simp only [spread, isWord, Bool.and_eq_true, List.all_eq_true]
    refine ⟨isWordStart_toLower h.1, fun d hd => ?_⟩
    exact isWordPart_of_isSmallPart (hspread d (List.mem_cons_of_mem _ hd))

/-- Without capitals nothing changes. -/
theorem spread_of_isSmallPart (h : ∀ c ∈ cs, isSmallPart c = true) : spread cs = cs := by
  cases cs with
  | nil => rfl
  | cons c cs =>
    obtain ⟨hc, hcs⟩ := List.forall_mem_cons.mp h
    have hfirst := toLower_of_isUpper_eq_false (isWordPart_of_isSmallPart hc)
      (isUpper_of_isSmallPart hc)
    have hrest : cs.flatMap spreadChar = cs.flatMap fun d => [d] :=
      List.flatMap_congr fun d hd => spreadChar_of_isSmallPart (hcs d hd)
    rw [spread, hfirst, hrest, List.flatMap_singleton']

theorem filter_flatMap_spreadChar (h : ∀ c ∈ cs, isWordPart c = true) :
    (cs.flatMap spreadChar).filter (· != '_') = (cs.filter (· != '_')).map Char.toLower := by
  induction cs with
  | nil => rfl
  | cons c cs ih =>
    obtain ⟨hc, hcs⟩ := List.forall_mem_cons.mp h
    rw [List.flatMap_cons, List.filter_append, filter_spreadChar hc, ih hcs, ← List.map_append,
      ← List.filter_append, List.singleton_append]

theorem filter_spread (h : ∀ c ∈ cs, isWordPart c = true) :
    (spread cs).filter (· != '_') = (cs.filter (· != '_')).map Char.toLower := by
  cases cs with
  | nil => rfl
  | cons c cs =>
    obtain ⟨hc, hcs⟩ := List.forall_mem_cons.mp h
    rw [spread, ← List.singleton_append, List.filter_append, filter_toLower hc,
      filter_flatMap_spreadChar hcs, ← List.map_append, ← List.filter_append, List.singleton_append]

/-! ### Identifiers -/

variable {s a b : String}

theorem toList_snakeCase_of_isIdent (h : isIdent s = true) :
    (snakeCase s).toList = spread s.toList :=
  toList_snakeCase (List.all_eq_true.mp (isWordPart_of_isIdent h))

theorem snakeCase_snakeCase (h : isIdent s = true) : snakeCase (snakeCase s) = snakeCase s := by
  have hsmall : ∀ c ∈ (snakeCase s).toList, isSmallPart c = true := by
    rw [toList_snakeCase_of_isIdent h]
    exact isSmallPart_spread (List.all_eq_true.mp (isWordPart_of_isIdent h))
  apply String.toList_inj.mp
  rw [toList_snakeCase fun c hc => isWordPart_of_isSmallPart (hsmall c hc),
    spread_of_isSmallPart hsmall]

theorem snakeCase_eq_iff (ha : isIdent a = true) (hb : isIdent b = true) :
    snakeCase a = snakeCase b ↔ spread a.toList = spread b.toList := by
  rw [← toList_snakeCase_of_isIdent ha, ← toList_snakeCase_of_isIdent hb, String.toList_inj]

theorem filter_snakeCase (h : isIdent s = true) :
    (snakeCase s).toList.filter (· != '_') = letters s := by
  rw [toList_snakeCase_of_isIdent h]
  exact filter_spread (List.all_eq_true.mp (isWordPart_of_isIdent h))

theorem letters_eq_of_snakeCase_eq (ha : isIdent a = true) (hb : isIdent b = true)
    (h : snakeCase a = snakeCase b) : letters a = letters b := by
  rw [← filter_snakeCase ha, ← filter_snakeCase hb, h]

end Name

/-! ### Collisions -/

/-- Two kinds are reported because of their accessors. -/
def Error.isCollision : Error → Bool
  | broken _ (.distinctAccessor _ _) => true
  | _ => false

section

variable {s : Schema} {p : Positions} {e : Entry} {f : Error}

theorem Access.isCollision_of_find {field : String} {t : TypeExpr}
    (h : find s e field t = .error f) : f.isCollision = false := by
  rcases find_error h with ⟨_, rfl⟩ | ⟨rfl, -⟩ <;> rfl

/-- The children of an entry are never refused for an accessor. -/
theorem ChildrenPlan.isCollision_of_ofEntry (h : ofEntry s e = .error f) :
    f.isCollision = false := by
  unfold ofEntry at h
  split at h
  · cases h
  · split at h
    · obtain ⟨⟨name, v⟩, -, harm⟩ := exists_of_collect_error (map_eq_error_iff.mp h)
      have hbody := map_eq_error_iff.mp harm
      cases v with
      | unit => cases hbody
      | struct fields hasId => cases hbody; rfl
      | wrap t =>
        simp only [payloadBody] at hbody
        split at hbody
        · cases hbody
        · exact Access.isCollision_of_find (map_eq_error_iff.mp hbody)
    · obtain ⟨⟨name, v⟩, -, harm⟩ := exists_of_collect_error (map_eq_error_iff.mp h)
      have hbody := map_eq_error_iff.mp harm
      cases v with
      | unit => cases hbody
      | wrap t => cases hbody
      | struct fields hasId =>
        obtain ⟨_, -, hwalk⟩ := exists_of_collect_error (map_eq_error_iff.mp hbody)
        exact Access.isCollision_of_find (map_eq_error_iff.mp hwalk)
    · obtain ⟨child, -, hwalk⟩ := exists_of_collect_error (map_eq_error_iff.mp h)
      unfold productWalk at hwalk
      split at hwalk
      · cases hwalk; rfl
      · exact Access.isCollision_of_find (map_eq_error_iff.mp hwalk)
    · cases h; rfl
    · cases h; rfl

/-- Two kinds that are reported because of their accessors have different names that come to one. -/
theorem ViewPlan.exists_of_distinctAccessor {name accessor other : String}
    (h : ofSchema s p = .error (.broken name (.distinctAccessor accessor other))) :
    ∃ a ∈ s.participating, ∃ b ∈ s.participating, a.name = name ∧ b.displayName = other ∧
      a.displayName ≠ b.displayName ∧ Name.snakeCase a.displayName = accessor ∧
      Name.snakeCase b.displayName = accessor := by
  rcases refuses_or_children h with hrefuses | ⟨e, -, hchildren⟩
  · cases hrefuses with
    | accessor first second same names =>
      exact ⟨_, second, _, first, rfl, rfl, names.symm, rfl, same⟩
  · cases ChildrenPlan.isCollision_of_ofEntry hchildren

end

/-- An identifier gives an accessor that is a word of small letters, digits and underscores, gives
no other one in turn, and has the letters of the identifier. Two identifiers give one accessor
exactly if they are equal once the first letter is small and each later capital is a small letter
after an underscore. So kinds are reported to collide only if their names have the same letters,
whatever the underscores and capitals. -/
theorem accessor_names_sound :
    (∀ n, Name.isIdent n = true →
      Name.isWord (Name.snakeCase n).toList = true ∧
        (∀ c ∈ (Name.snakeCase n).toList, Name.isSmallPart c = true) ∧
        Name.snakeCase (Name.snakeCase n) = Name.snakeCase n ∧
        (Name.snakeCase n).toList.filter (· != '_') = Name.letters n) ∧
    (∀ a b, Name.isIdent a = true → Name.isIdent b = true →
      (Name.snakeCase a = Name.snakeCase b ↔
        Name.spread a.toList = Name.spread b.toList)) ∧
    (∀ d s p name accessor other, Schema.ofDraft d = .ok s →
      ViewPlan.ofSchema s p = .error (.broken name (.distinctAccessor accessor other)) →
      ∃ a ∈ s.participating, ∃ b ∈ s.participating, a.name = name ∧ b.displayName = other ∧
        a.displayName ≠ b.displayName ∧
        Name.letters a.displayName = Name.letters b.displayName) := by
  refine ⟨fun n hn => ?_, fun a b => Name.snakeCase_eq_iff, ?_⟩
  · have hword : Name.isWord n.toList = true := (Name.isIdent_iff.mp hn).word
    rw [Name.filter_snakeCase hn, Name.snakeCase_snakeCase hn, Name.toList_snakeCase_of_isIdent hn]
    exact ⟨Name.isWord_spread hword,
      Name.isSmallPart_spread (List.all_eq_true.mp (Name.isWordPart_of_isIdent hn)), rfl, rfl⟩
  · intro d s p name accessor other hs h
    have hident : ∀ e ∈ s.participating, Name.isIdent e.displayName = true := fun e he =>
      (Schema.loaded_ofDraft hs e (List.mem_filter.mp he).1).display
    obtain ⟨a, ha, b, hb, hname, hother, hne, hacca, haccb⟩ :=
      ViewPlan.exists_of_distinctAccessor h
    exact ⟨a, ha, b, hb, hname, hother, hne,
      Name.letters_eq_of_snakeCase_eq (hident a ha) (hident b hb) (hacca.trans haccb.symm)⟩

namespace Capitals

/-! Two kinds whose names differ in a capital and an underscore. -/

def draft : Draft :=
  ⟨[("HTag", .definition [("x", .text "u8")]), ("h_tag", .definition [("x", .text "u8")])],
    by decide⟩

def schema : Schema :=
  ⟨[{ name := "HTag", displayName := "HTag", shape := .product [("x", .named "u8")] },
    { name := "h_tag", displayName := "h_tag", shape := .product [("x", .named "u8")] }], by decide⟩

theorem names_collide : Name.snakeCase (Name.snakeCase "HTag") = Name.snakeCase "HTag" ∧
    Name.snakeCase "HTag" = Name.snakeCase "h_tag" ∧
    ViewPlan.ofSchema schema ⟨[]⟩ = .error (.broken "h_tag" (.distinctAccessor "h_tag" "HTag")) ∧
    Name.letters "HTag" = Name.letters "h_tag" := by
  have hs : Schema.ofDraft draft = .ok schema := Schema.ofDraft_eq_ok (by decide +kernel)
  have hview : ViewPlan.ofSchema schema ⟨[]⟩ =
      .error (.broken "h_tag" (.distinctAccessor "h_tag" "HTag")) := by decide +kernel
  obtain ⟨hsound, hiff, hcollide⟩ := accessor_names_sound
  obtain ⟨a, ha, b, -, hname, hother, -, hletters⟩ := hcollide _ _ _ _ _ _ hs hview
  obtain rfl : a = schema.entries[1] := by
    rcases List.mem_pair.mp (List.mem_filter.mp ha).1 with rfl | rfl
    · exact absurd hname (by decide)
    · rfl
  rw [hother] at hletters
  exact ⟨(hsound "HTag" (by decide)).2.2.1,
    (hiff "HTag" "h_tag" (by decide) (by decide)).mpr (by decide), hview, hletters.symm⟩

end Capitals

end TreeSchema
