import Mathlib.Data.List.TakeWhile
import TreeSchema.Proofs.Name
import TreeSchema.TypeExpr

/-!
# Reading and writing types

The reader cuts a type at the first opening bracket and at a closing one at the end, and makes no
tokens. It accepts the grammar all the same: a path, or a constructor with one type in angle
brackets, with blanks around each of these. Blanks are all that is lost in reading.
-/

namespace TreeSchema

namespace Text

/-- Nothing but blanks. -/
def Blank (cs : List Char) : Prop := ∀ c ∈ cs, isBlank c = true

/-- A text with blanks around it. -/
def Padded (cs core : List Char) : Prop :=
  ∃ before after, Blank before ∧ Blank after ∧ cs = before ++ core ++ after

/-- Blanks neither at the start nor at the end. -/
def Tight (cs : List Char) : Prop :=
  (∃ c, cs.head? = some c ∧ isBlank c = false) ∧ ∃ c, cs.getLast? = some c ∧ isBlank c = false

variable {cs core : List Char}

theorem blank_takeWhile (cs : List Char) : Blank (cs.takeWhile isBlank) :=
  fun _ hc => List.mem_takeWhile_imp hc

theorem Blank.reverse (h : Blank cs) : Blank cs.reverse :=
  fun c hc => h c (List.mem_reverse.mp hc)

theorem Blank.append {a b : List Char} (ha : Blank a) (hb : Blank b) : Blank (a ++ b) :=
  fun c hc => (List.mem_append.mp hc).elim (ha c) (hb c)

theorem Blank.notMem (h : Blank cs) {c : Char} (hc : isBlank c = false) : c ∉ cs := by
  intro hmem
  rw [h c hmem] at hc
  cases hc

theorem Blank.filter_eq_nil (h : Blank cs) : (cs.filter fun c => !isBlank c) = [] :=
  List.filter_eq_nil_iff.mpr fun c hc => by simp [h c hc]

theorem Padded.notMem (h : Padded cs core) {c : Char} (hc : isBlank c = false)
    (hcore : c ∉ core) : c ∉ cs := by
  obtain ⟨before, after, hb, ha, rfl⟩ := h
  simp [hb.notMem hc, ha.notMem hc, hcore]

theorem Padded.filter_eq (h : Padded cs core) :
    (cs.filter fun c => !isBlank c) = core.filter fun c => !isBlank c := by
  obtain ⟨before, after, hb, ha, rfl⟩ := h
  simp only [List.filter_append, hb.filter_eq_nil, ha.filter_eq_nil, List.nil_append,
    List.append_nil]

theorem tight_of_forall (hne : cs ≠ []) (h : ∀ c ∈ cs, isBlank c = false) : Tight cs :=
  ⟨⟨_, List.head?_eq_some_head hne, h _ (List.head_mem hne)⟩,
    ⟨_, List.getLast?_eq_some_getLast hne, h _ (List.getLast_mem hne)⟩⟩

/-- What is left between the blanks at both ends. -/
theorem padded_trimChars (cs : List Char) : Padded cs (trimChars cs) := by
  have hend (body : List Char) :
      body = dropBlankEnd body ++ (body.reverse.takeWhile isBlank).reverse := by
    rw [dropBlankEnd, ← List.reverse_append, List.takeWhile_append_dropWhile, List.reverse_reverse]
  refine ⟨cs.takeWhile isBlank, ((cs.dropWhile isBlank).reverse.takeWhile isBlank).reverse,
    blank_takeWhile _, (blank_takeWhile _).reverse, ?_⟩
  rw [List.append_assoc, trimChars, ← hend, List.takeWhile_append_dropWhile]

theorem dropWhile_append_of_blank {blanks : List Char} (hb : Blank blanks)
    (hcs : ∃ c, cs.head? = some c ∧ isBlank c = false) :
    (blanks ++ cs).dropWhile isBlank = cs := by
  rw [List.dropWhile_append_of_pos hb]
  obtain ⟨c, hhead, hc⟩ := hcs
  obtain ⟨rest, rfl⟩ := List.head?_eq_some_iff.mp hhead
  rw [List.dropWhile_cons_of_neg (by simp [hc])]

theorem trimChars_of_padded (h : Padded cs core) (ht : Tight core) : trimChars cs = core := by
  obtain ⟨before, after, hb, ha, rfl⟩ := h
  obtain ⟨⟨first, hfirst, hf⟩, ⟨last, hlast, hl⟩⟩ := ht
  rw [trimChars, List.append_assoc, dropWhile_append_of_blank hb ⟨first, ?_, hf⟩, dropBlankEnd,
    List.reverse_append, dropWhile_append_of_blank ha.reverse ⟨last, ?_, hl⟩, List.reverse_reverse]
  · rw [List.head?_reverse, hlast]
  · rw [List.head?_append, hfirst]
    rfl

end Text

open Text

theorem Wrapper.ofWord?_eq_some_iff {s : String} {w : Wrapper} :
    ofWord? s = some w ↔ w.word = s := by
  constructor
  · intro h
    simpa using List.find?_some h
  · rintro rfl
    cases w <;> rfl

namespace TypeExpr

/-- The wrappers of a type, outermost first. -/
def wrappers : TypeExpr → List Wrapper
  | wrap w inner => w :: inner.wrappers
  | _ => []

/-- What is inside all of them. -/
def core : TypeExpr → TypeExpr
  | wrap _ inner => inner.core
  | t => t

/-- The texts of a type: a path, which is the position type if it is the word for that, or a
constructor with a type in angle brackets, and blanks around each of these. -/
inductive Written : List Char → TypeExpr → Prop where
  | position {cs : List Char} (text : Padded cs positionWord.toList) : Written cs .position
  | named {cs : List Char} {name : String} (path : Name.Path name.toList)
      (other : name ≠ positionWord) (text : Padded cs name.toList) : Written cs (.named name)
  | wrap {cs gap inner : List Char} {w : Wrapper} {t : TypeExpr} (blank : Blank gap)
      (param : Written inner t)
      (text : Padded cs (w.word.toList ++ gap ++ '<' :: (inner ++ ['>']))) : Written cs (.wrap w t)

/-! ### Characters of a type -/

theorem path_positionWord : Name.Path positionWord.toList := Name.isPath_iff.mp (by decide)

theorem path_word (w : Wrapper) : Name.Path w.word.toList :=
  Name.isPath_iff.mp (by cases w <;> decide)

theorem tight_of_path {path : List Char} (h : Name.Path path) : Tight path :=
  tight_of_forall h.ne_nil fun _ hc => h.not_isBlank hc

theorem filter_path {path : List Char} (h : Name.Path path) :
    (path.filter fun c => !isBlank c) = path :=
  List.filter_eq_self.mpr fun c hc => by simp [h.not_isBlank hc]

theorem tight_wrap (w : Wrapper) (gap inner : List Char) :
    Tight (w.word.toList ++ gap ++ '<' :: (inner ++ ['>'])) := by
  obtain ⟨⟨first, hfirst, hf⟩, -⟩ := tight_of_path (path_word w)
  refine ⟨⟨first, ?_, hf⟩, ⟨'>', ?_, by decide⟩⟩
  · simp [List.head?_append, hfirst]
  · rw [← List.cons_append, ← List.append_assoc, List.getLast?_concat]

theorem comma_notMem_of_written {cs : List Char} {t : TypeExpr} (h : Written cs t) : ',' ∉ cs := by
  have hpath {path : List Char} (h : Name.Path path) : ',' ∉ path :=
    h.notMem (by decide) (by decide)
  induction h with
  | position text => exact text.notMem (by decide) (hpath path_positionWord)
  | named path _ text => exact text.notMem (by decide) (hpath path)
  | @wrap cs gap inner w t blank _ text ih =>
    have hgap : ',' ∉ gap := blank.notMem (by decide)
    exact text.notMem (by decide) (by simp [hpath (path_word w), hgap, ih])

theorem hasOuterComma_of_notMem {cs : List Char} (h : ',' ∉ cs) (depth : Nat) :
    hasOuterComma depth cs = false := by
  fun_induction hasOuterComma depth cs with
  | case1 => rfl
  | case2 depth cs ih => exact ih (List.not_mem_of_not_mem_cons h)
  | case3 depth cs ih => exact ih (List.not_mem_of_not_mem_cons h)
  | case4 depth cs => simp at h
  | case5 depth c cs _ _ _ ih => exact ih (List.not_mem_of_not_mem_cons h)

/-! ### The steps of the reader -/

/-- A path stands for the position type or for itself. -/
def ofPath (path : List Char) : TypeExpr :=
  if String.ofList path = positionWord then .position else .named (String.ofList path)

theorem written_ofPath {cs path : List Char} (h : Name.Path path) (text : Padded cs path) :
    Written cs (ofPath path) := by
  unfold ofPath
  split
  · next hposition =>
    exact .position (by rwa [← hposition, String.toList_ofList])
  · next hother =>
    exact .named (by rwa [String.toList_ofList]) hother (by rwa [String.toList_ofList])

theorem parseLeaf_eq_ok_iff {text : List Char} {t : TypeExpr} :
    parseLeaf text = .ok t ↔ Name.Path text ∧ t = ofPath text := by
  have hpath : Name.isPath (String.ofList text) = true ↔ Name.Path text := by
    rw [Name.isPath_iff, String.toList_ofList]
  simp only [parseLeaf]
  split
  · next hclose =>
    have hno : ¬ Name.Path text := fun h =>
      h.notMem (by decide) (by decide) (List.contains_iff_mem.mp hclose)
    simp [hno]
  · split
    · next hno => simp_all
    · next hyes =>
      have h : Name.Path text := hpath.mp (by simpa using hyes)
      rw [← apply_ite Except.ok, Except.ok.injEq]
      exact ⟨fun ht => ⟨h, ht.symm⟩, fun ht => ht.2.symm⟩

theorem opening_of_dropWhile {text rest : List Char} {c : Char}
    (h : text.dropWhile (· != '<') = c :: rest) : c = '<' := by
  have hnot := List.head?_dropWhile_not (· != '<') text
  simpa [h] using hnot

theorem concat_of_withoutClose {rest inner : List Char} (h : withoutClose rest = some inner) :
    rest = inner ++ ['>'] := by
  unfold withoutClose at h
  split at h
  · next hlast =>
    obtain ⟨before, rfl⟩ := List.getLast?_eq_some_iff.mp hlast
    cases h
    rw [List.dropLast_concat]
  · cases h

theorem parseChars_of_leaf {src : List Char} (hne : trimChars src ≠ [])
    (hopen : '<' ∉ trimChars src) : parseChars src = parseLeaf (trimChars src) := by
  have hdrop : (trimChars src).dropWhile (· != '<') = [] := by
    rw [List.dropWhile_eq_nil_iff]
    intro c hc
    simpa using ne_of_mem_of_not_mem hc hopen
  rw [parseChars]
  split
  · simp [hne]
  · next hcons => rw [hdrop] at hcons; cases hcons

theorem parseChars_of_wrap {src word inner : List Char} {t : TypeExpr}
    (htrim : trimChars src = word ++ '<' :: (inner ++ ['>'])) (hopen : '<' ∉ word)
    (hcomma : ',' ∉ inner) (hinner : parseChars inner = .ok t) :
    parseChars src =
      applyConstructor (String.ofList (trimChars word)) (String.ofList (trimChars src)) t := by
  have hbefore : ∀ c ∈ word, (c != '<') = true := by
    intro c hc
    simpa using ne_of_mem_of_not_mem hc hopen
  have hdrop : (trimChars src).dropWhile (· != '<') = '<' :: (inner ++ ['>']) := by
    rw [htrim, List.dropWhile_append_of_pos hbefore]
    rfl
  have htake : (trimChars src).takeWhile (· != '<') = word := by
    rw [htrim, List.takeWhile_append_of_pos hbefore]
    simp
  have hclose : withoutClose (inner ++ ['>']) = some inner := by simp [withoutClose]
  rw [parseChars]
  split
  · next hnil => rw [hdrop] at hnil; cases hnil
  · next c rest hcons =>
    rw [hdrop] at hcons
    cases hcons
    split
    · next hnone => rw [hclose] at hnone; cases hnone
    · next param hsome =>
      rw [hclose] at hsome
      cases hsome
      simp only [hasOuterComma_of_notMem hcomma, htake, hinner]
      rfl

theorem applyConstructor_eq_ok_iff {word text : String} {inner t : TypeExpr} :
    applyConstructor word text inner = .ok t ↔
      ∃ w : Wrapper, w.word = word ∧ t = .wrap w inner := by
  unfold applyConstructor
  cases hw : Wrapper.ofWord? word with
  | some w =>
    obtain rfl := Wrapper.ofWord?_eq_some_iff.mp hw
    constructor
    · rintro ⟨⟩
      exact ⟨w, rfl, rfl⟩
    · rintro ⟨u, hu, rfl⟩
      rw [← Wrapper.ofWord?_eq_some_iff, hw] at hu
      cases hu
      rfl
  | none =>
    simp only [reduceCtorEq, false_iff, not_exists, not_and]
    rintro w hword
    rw [← Wrapper.ofWord?_eq_some_iff, hw] at hword
    cases hword

/-! ### The grammar -/

/-- What is read was written by the grammar. -/
theorem written_of_parseChars {src : List Char} {t : TypeExpr} (h : parseChars src = .ok t) :
    Written src t := by
  fun_induction parseChars src generalizing t with
  | case1 => cases h
  | case2 src =>
    obtain ⟨hpath, rfl⟩ := parseLeaf_eq_ok_iff.mp h
    exact written_ofPath hpath (padded_trimChars src)
  | case3 => cases h
  | case4 => cases h
  | case5 => cases h
  | case6 src c rest hdrop _ inner hclose =>
    rename_i u hinner ih
    obtain ⟨w, hword, rfl⟩ := applyConstructor_eq_ok_iff.mp h
    obtain rfl := opening_of_dropWhile hdrop
    obtain rfl := concat_of_withoutClose hclose
    obtain ⟨b, a, hb, ha, hsrc⟩ := padded_trimChars src
    obtain ⟨b', gap, hb', hgap, hctor⟩ :=
      padded_trimChars ((trimChars src).takeWhile (· != '<'))
    rw [← String.toList_inj, String.toList_ofList] at hword
    rw [← hword] at hctor
    refine .wrap hgap (ih hinner) ⟨b ++ b', a, hb.append hb', ha, ?_⟩
    have htrim : trimChars src = b' ++ w.word.toList ++ gap ++ '<' :: (inner ++ ['>']) := by
      rw [← hctor, ← hdrop, List.takeWhile_append_dropWhile]
    rw [hsrc, htrim]
    simp

/-- What is written by the grammar is read. -/
theorem parseChars_of_written {src : List Char} {t : TypeExpr} (h : Written src t) :
    parseChars src = .ok t := by
  have hleaf {src path : List Char} (hpath : Name.Path path) (text : Padded src path) :
      parseChars src = .ok (ofPath path) := by
    have htrim := trimChars_of_padded text (tight_of_path hpath)
    rw [parseChars_of_leaf (by rw [htrim]; exact hpath.ne_nil)
      (by rw [htrim]; exact hpath.notMem (by decide) (by decide)), htrim]
    exact parseLeaf_eq_ok_iff.mpr ⟨hpath, rfl⟩
  induction h with
  | position text => exact hleaf path_positionWord text
  | @named cs name path other text =>
    rw [hleaf path text, ofPath, String.ofList_toList, if_neg other]
  | @wrap cs gap inner w t blank param text ih =>
    have hword : trimChars (w.word.toList ++ gap) = w.word.toList :=
      trimChars_of_padded ⟨[], gap, by simp [Blank], blank, rfl⟩ (tight_of_path (path_word w))
    have hopen : '<' ∉ w.word.toList ++ gap := by
      rw [List.mem_append, not_or]
      exact ⟨(path_word w).notMem (by decide) (by decide), blank.notMem (by decide)⟩
    rw [parseChars_of_wrap (trimChars_of_padded text (tight_wrap w gap inner)) hopen
      (comma_notMem_of_written param) ih]
    exact applyConstructor_eq_ok_iff.mpr ⟨w, by rw [hword, String.ofList_toList], rfl⟩

theorem parse_eq_ok_iff {src : String} {t : TypeExpr} :
    parse src = .ok t ↔ Written src.toList t :=
  ⟨written_of_parseChars, parseChars_of_written⟩

/-- Without its blanks a text of a type is what is written for the type. -/
theorem filter_of_written {cs : List Char} {t : TypeExpr} (h : Written cs t) :
    (cs.filter fun c => !isBlank c) = (t.render id).toList := by
  induction h with
  | position text => rw [text.filter_eq, filter_path path_positionWord, render]
  | named path _ text => rw [text.filter_eq, filter_path path, render, id]
  | @wrap cs gap inner w t blank _ text ih =>
    have hangles : isBlank '<' = false ∧ isBlank '>' = false := by decide
    rw [text.filter_eq, List.filter_append, List.filter_append, filter_path (path_word w),
      blank.filter_eq_nil, render]
    simp [ih, hangles]

/-- What is written for a type is a text of it. -/
theorem written_render {t : TypeExpr}
    (h : ∀ n ∈ t.names, Name.Path n.toList ∧ n ≠ positionWord) :
    Written (t.render id).toList t := by
  have hself (cs : List Char) : Padded cs cs := ⟨[], [], by simp [Blank], by simp [Blank], by simp⟩
  induction t with
  | position => exact .position (hself _)
  | named name =>
    obtain ⟨hpath, hother⟩ := h name (List.mem_singleton.mpr rfl)
    exact .named hpath hother (hself _)
  | wrap w inner ih =>
    have hnone : Blank [] := by simp [Blank]
    refine .wrap hnone (ih h) ?_
    have htext : (render id (.wrap w inner)).toList =
        w.word.toList ++ [] ++ '<' :: ((inner.render id).toList ++ ['>']) := by
      simp [render]
    rw [htext]
    exact hself _

/-- Types are read from exactly the texts of the grammar, each as the type that it is a text of;
writing the type gives the text without its blanks. And every type whose name is a path, and not
the word for the position type, is read back from what is written for it. -/
theorem reads_exactly_grammar :
    (∀ (src : String) (t : TypeExpr), parse src = .ok t ↔ Written src.toList t) ∧
    (∀ (src : String) (t : TypeExpr), parse src = .ok t →
      (t.render id).toList = src.toList.filter fun c => !isBlank c) ∧
    ∀ t : TypeExpr, (∀ n ∈ t.names, Name.Path n.toList ∧ n ≠ positionWord) →
      parse (t.render id) = .ok t := by
  refine ⟨fun src t => parse_eq_ok_iff, fun src t h => ?_, fun t h => ?_⟩
  · exact (filter_of_written (parse_eq_ok_iff.mp h)).symm
  · exact parse_eq_ok_iff.mpr (written_render h)

/-- Blanks of several kinds, and three texts whose brackets do not fit. -/
theorem reads_nested_only :
    parse " Option <\tVec< a::B >\u00a0> " =
        .ok (.wrap .optional (.wrap .sequence (.named "a::B"))) ∧
    (render id (.wrap .optional (.wrap .sequence (.named "a::B")))).toList =
      " Option <\tVec< a::B >\u00a0> ".toList.filter (fun c => !isBlank c) ∧
    parse "Option<Vec<a::B>>" = .ok (.wrap .optional (.wrap .sequence (.named "a::B"))) ∧
    ∀ src ∈ ["Vec<A>>", "Vec<A><B>", "Vec<A<B>"], ∀ t, ¬ Written src.toList t := by
  obtain ⟨hiff, hrender, hback⟩ := reads_exactly_grammar
  have hparse : parse " Option <\tVec< a::B >\u00a0> " =
      .ok (.wrap .optional (.wrap .sequence (.named "a::B"))) := by decide +kernel
  have hpath : Name.Path "a::B".toList := Name.isPath_iff.mp (by decide)
  refine ⟨hparse, hrender _ _ hparse,
    hback (.wrap .optional (.wrap .sequence (.named "a::B"))) ?_, ?_⟩
  · simpa [names] using ⟨hpath, by decide⟩
  · intro src hsrc t hwritten
    have hrefused : ∀ src ∈ ["Vec<A>>", "Vec<A><B>", "Vec<A<B>"], (parse src).isOk = false := by
      decide +kernel
    have hok := hrefused src hsrc
    rw [(hiff src t).mpr hwritten] at hok
    cases hok

end TypeExpr

end TreeSchema
