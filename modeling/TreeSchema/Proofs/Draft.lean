import Mathlib.Data.List.Induction
import Mathlib.Data.List.Nodup
import TreeSchema.Draft
import TreeSchema.Error
import TreeSchema.Proofs.Document.Refused

/-!
# Which documents are drafts

The values of a definition have a grammar, and a document is a draft if it is a mapping whose keys
differ from names to texts and definitions. The first entry that is not so decides what is
reported, whatever comes after it.
-/

namespace TreeSchema

open Checked (map_eq_error_iff)
open Document (Tree Reading Ending Format Branch Found Cut whole)

namespace Draft

/-! ### The grammar of values -/

mutual

/-- The value that a tree says. -/
inductive Says : Tree → Value → Prop where
  | null : Says .null .null
  | flag (b : Bool) : Says (.bool b) (.flag b)
  | text (s : String) : Says (.text s) (.text s)
  | list (items : List String) : Says (.list (items.map .text)) (.list items)
  | mapping {members : List (Tree × Tree)} {values : List (String × Value)}
      (distinct : (values.map Prod.fst).Nodup) (all : SaysAll members values) :
      Says (.mapping members) (.mapping values)

/-- The keys are texts, and the values are said one by one. -/
inductive SaysAll : List (Tree × Tree) → List (String × Value) → Prop where
  | nil : SaysAll [] []
  | cons {key : String} {t : Tree} {v : Value} {members : List (Tree × Tree)}
      {values : List (String × Value)} (head : Says t v) (tail : SaysAll members values) :
      SaysAll ((.text key, t) :: members) ((key, v) :: values)

end

/-- A text is another name for a type, and a mapping is a definition. -/
inductive SaysBody : Tree → Body → Prop where
  | aliasOf (s : String) : SaysBody (.text s) (.aliasOf s)
  | definition {members : List (Tree × Tree)} {values : List (String × Value)}
      (mapping : Says (.mapping members) (.mapping values)) :
      SaysBody (.mapping members) (.definition values)

theorem textOf?_eq_some_iff {t : Tree} {s : String} : textOf? t = some s ↔ t = .text s := by
  cases t <;> simp [textOf?]

theorem mapM_textOf?_eq_some_iff {items : List Tree} {texts : List String} :
    items.mapM textOf? = some texts ↔ items = texts.map .text := by
  induction items generalizing texts with
  | nil => simp [eq_comm]
  | cons t items ih =>
    cases texts with
    | nil => simp [List.mapM_cons, Option.bind_eq_some_iff]
    | cons s texts =>
      simp [List.mapM_cons, Option.bind_eq_some_iff, textOf?_eq_some_iff, ih]

mutual

theorem valueOf?_eq_some_iff (t : Tree) (v : Value) : valueOf? t = some v ↔ Says t v := by
  cases t with
  | null =>
    simp only [valueOf?, Option.some.injEq]
    exact ⟨fun h => h ▸ .null, fun h => by cases h; rfl⟩
  | bool b =>
    simp only [valueOf?, Option.some.injEq]
    exact ⟨fun h => h ▸ .flag b, fun h => by cases h; rfl⟩
  | integer n =>
    simp only [valueOf?, reduceCtorEq, false_iff]
    rintro ⟨⟩
  | fraction =>
    simp only [valueOf?, reduceCtorEq, false_iff]
    rintro ⟨⟩
  | refused f t =>
    simp only [valueOf?, reduceCtorEq, false_iff]
    rintro ⟨⟩
  | text s =>
    simp only [valueOf?, Option.some.injEq]
    exact ⟨fun h => h ▸ .text s, fun h => by cases h; rfl⟩
  | list items =>
    simp only [valueOf?, Option.map_eq_some_iff, mapM_textOf?_eq_some_iff]
    constructor
    · rintro ⟨texts, rfl, rfl⟩
      exact .list texts
    · intro h
      cases h with
      | list texts => exact ⟨texts, rfl, rfl⟩
  | mapping members =>
    simp only [valueOf?, Option.map_eq_some_iff, membersOf?_eq_some_iff members]
    constructor
    · rintro ⟨values, ⟨hall, hdistinct⟩, rfl⟩
      exact .mapping hdistinct hall
    · intro h
      cases h with
      | mapping distinct all => exact ⟨_, ⟨all, distinct⟩, rfl⟩

theorem membersOf?_eq_some_iff (members : List (Tree × Tree)) (values : List (String × Value)) :
    membersOf? members = some values ↔ SaysAll members values ∧ (values.map Prod.fst).Nodup := by
  cases members with
  | nil =>
    simp only [membersOf?, Option.some.injEq]
    constructor
    · rintro rfl
      exact ⟨.nil, List.nodup_nil⟩
    · rintro ⟨⟨⟩, -⟩
      rfl
  | cons m members =>
    obtain ⟨k, t⟩ := m
    simp only [membersOf?, Option.bind_eq_bind, Option.bind_eq_some_iff, textOf?_eq_some_iff,
      valueOf?_eq_some_iff t, membersOf?_eq_some_iff members]
    constructor
    · rintro ⟨key, rfl, v, hv, rest, ⟨hall, hdistinct⟩, h⟩
      split at h
      · cases h
      · next hkey =>
        cases h
        refine ⟨.cons hv hall, List.nodup_cons.mpr ⟨?_, hdistinct⟩⟩
        simpa using hkey
    · rintro ⟨hall, hdistinct⟩
      cases hall with
      | @cons key _ v _ rest head tail =>
        obtain ⟨hkey, hrest⟩ := List.nodup_cons.mp hdistinct
        refine ⟨key, rfl, v, head, rest, ⟨tail, hrest⟩, if_neg ?_⟩
        simpa using hkey

end

theorem bodyOf?_eq_some_iff {t : Tree} {b : Body} : bodyOf? t = some b ↔ SaysBody t b := by
  constructor
  · intro h
    cases t with
    | text s =>
      cases h
      exact .aliasOf s
    | mapping members =>
      obtain ⟨values, hvalues, rfl⟩ := Option.map_eq_some_iff.mp h
      obtain ⟨hall, hdistinct⟩ := (membersOf?_eq_some_iff members values).mp hvalues
      exact .definition (.mapping hdistinct hall)
    | null | bool | integer | fraction | list | refused => cases h
  · intro h
    cases h with
    | aliasOf s => rfl
    | definition mapping =>
      cases mapping with
      | mapping distinct all =>
        exact Option.map_eq_some_iff.mpr
          ⟨_, (membersOf?_eq_some_iff _ _).mpr ⟨all, distinct⟩, rfl⟩

theorem bodyOf?_eq_none_iff {t : Tree} : bodyOf? t = none ↔ ¬ ∃ b, SaysBody t b := by
  simp only [Option.eq_none_iff_forall_ne_some, ne_eq, bodyOf?_eq_some_iff, not_exists]

/-! ### No refused value is said -/

theorem refusedItem?_texts (i : ℕ) (items : List String) :
    Tree.refusedItem? i (items.map .text) = none := by
  induction items generalizing i with
  | nil => simp [Tree.refusedItem?]
  | cons s items ih => simp [Tree.refusedItem?, Tree.refused?, ih]

mutual

theorem Says.refused?_eq_none {t : Tree} {v : Value} (h : Says t v) : t.refused? = none := by
  cases h with
  | null => simp [Tree.refused?]
  | flag b => simp [Tree.refused?]
  | text s => simp [Tree.refused?]
  | list items => simpa using refusedItem?_texts 0 items
  | mapping distinct all => simpa using all.refusedMember?_eq_none

theorem SaysAll.refusedMember?_eq_none {members : List (Tree × Tree)}
    {values : List (String × Value)} (h : SaysAll members values) :
    Tree.refusedMember? members = none := by
  cases h with
  | nil => simp [Tree.refusedMember?]
  | cons head tail =>
    simp [Tree.refusedMember?, Tree.refused?, head.refused?_eq_none, tail.refusedMember?_eq_none]

end

theorem SaysBody.refused?_eq_none {t : Tree} {b : Body} (h : SaysBody t b) :
    t.refused? = none := by
  cases h with
  | aliasOf s => simp [Tree.refused?]
  | definition mapping => exact mapping.refused?_eq_none

/-! ### Entries in turn -/

/-- The entries of a document and those of a draft, one by one. -/
def Reads (entries : List (String × Tree)) (bodies : List (String × Body)) : Prop :=
  List.Forall₂ (fun x y => x.1 = y.1 ∧ SaysBody x.2 y.2) entries bodies

/-- Entries that a draft can have. -/
structure Fine (entries : List (String × Tree)) : Prop where
  distinct : (entries.map Prod.fst).Nodup
  bodies : ∀ x ∈ entries, ∃ b, SaysBody x.2 b

/-- The entry after those in `before` is the first that no draft can have there. -/
structure FirstProblem (entries before : List (String × Tree)) (key : String) (t : Tree) :
    Prop where
  place : ∃ after, entries = before ++ (key, t) :: after
  fine : Fine before
  problem : key ∈ before.map Prod.fst ∨ ¬ ∃ b, SaysBody t b

theorem eq_of_entries_eq {d d' : Draft} (h : d.entries = d'.entries) : d = d' := by
  cases d
  cases d'
  cases h
  rfl

theorem pushTree_of_mem {d : Draft} {key : String} (h : key ∈ d.names) (t : Tree) :
    d.pushTree key t = .error (.repeatedKey key) := by
  rw [pushTree, dif_pos h]

theorem pushTree_of_notMem {d : Draft} {key : String} {t : Tree} (h : key ∉ d.names)
    (ht : ¬ ∃ b, SaysBody t b) : d.pushTree key t = .error (.entry key) := by
  rw [pushTree, dif_neg h, bodyOf?_eq_none_iff.mpr ht]

theorem pushTree_of_says {d : Draft} {key : String} {t : Tree} {b : Body} (h : key ∉ d.names)
    (ht : SaysBody t b) : d.pushTree key t = .ok (d.push key b h) := by
  rw [pushTree, dif_neg h, bodyOf?_eq_some_iff.mpr ht]

theorem names_push {d : Draft} {key : String} {b : Body} (h : key ∉ d.names) :
    (d.push key b h).names = d.names ++ [key] := by
  simp [names, push]

/-- Entries are taken if their keys are new and each of them says a body. -/
theorem pushTrees_eq_ok_iff {d d' : Draft} {entries : List (String × Tree)} :
    d.pushTrees entries = .ok d' ↔ (d.names ++ entries.map Prod.fst).Nodup ∧
      ∃ bodies, Reads entries bodies ∧ d'.entries = d.entries ++ bodies := by
  induction entries generalizing d with
  | nil =>
    simp only [pushTrees, Except.ok.injEq, List.map_nil, List.append_nil]
    constructor
    · rintro rfl
      exact ⟨d.nodup, [], .nil, (List.append_nil _).symm⟩
    · rintro ⟨-, bodies, hreads, h⟩
      cases hreads
      exact eq_of_entries_eq (by rw [h, List.append_nil])
  | cons x entries ih =>
    obtain ⟨key, t⟩ := x
    constructor
    · intro h
      by_cases hkey : key ∈ d.names
      · simp [pushTrees, pushTree_of_mem hkey] at h
      · by_cases ht : ∃ b, SaysBody t b
        · obtain ⟨b, hb⟩ := ht
          simp only [pushTrees, pushTree_of_says hkey hb] at h
          obtain ⟨hnodup, bodies, hreads, heq⟩ := ih.mp h
          rw [names_push, List.append_assoc] at hnodup
          exact ⟨hnodup, (key, b) :: bodies, .cons ⟨rfl, hb⟩ hreads, by simpa [push] using heq⟩
        · simp [pushTrees, pushTree_of_notMem hkey ht] at h
    · rintro ⟨hnodup, _, hreads, heq⟩
      cases hreads with
      | @cons _ y _ bodies hhead htail =>
        obtain ⟨name, b⟩ := y
        obtain ⟨rfl, hb⟩ := hhead
        have hkey : key ∉ d.names := by
          intro hmem
          exact (List.nodup_append.mp hnodup).2.2 key hmem key (List.mem_cons_self ..) rfl
        simp only [pushTrees, pushTree_of_says hkey hb]
        refine ih.mpr ⟨?_, bodies, htail, by simpa [push] using heq⟩
        rwa [names_push, List.append_assoc]

theorem pushTrees_append {d d' : Draft} {before : List (String × Tree)}
    (h : d.pushTrees before = .ok d') (after : List (String × Tree)) :
    d.pushTrees (before ++ after) = d'.pushTrees after := by
  induction before generalizing d with
  | nil => cases h; rfl
  | cons x before ih =>
    obtain ⟨key, t⟩ := x
    simp only [List.cons_append, pushTrees] at h ⊢
    split at h
    · cases h
    · next next hnext => exact ih h

theorem Reads.names {entries : List (String × Tree)} {bodies : List (String × Body)}
    (h : Reads entries bodies) : bodies.map Prod.fst = entries.map Prod.fst := by
  induction h with
  | nil => rfl
  | cons hxy _ ih => simp [hxy.1, ih]

theorem Reads.bodies {entries : List (String × Tree)} {bodies : List (String × Body)}
    (h : Reads entries bodies) : ∀ x ∈ entries, ∃ b, SaysBody x.2 b := by
  intro x hx
  obtain ⟨y, -, -, hy⟩ := Checked.exists_of_mem_forall₂ h hx
  exact ⟨y.2, hy⟩

theorem exists_reads {entries : List (String × Tree)} (h : ∀ x ∈ entries, ∃ b, SaysBody x.2 b) :
    ∃ bodies, Reads entries bodies := by
  induction entries with
  | nil => exact ⟨[], .nil⟩
  | cons x entries ih =>
    obtain ⟨⟨b, hb⟩, hentries⟩ := List.forall_mem_cons.mp h
    obtain ⟨bodies, hbodies⟩ := ih hentries
    exact ⟨(x.1, b) :: bodies, .cons ⟨rfl, hb⟩ hbodies⟩

/-- Fine entries make a draft with their keys. -/
theorem Fine.exists_pushTrees {entries : List (String × Tree)} (h : Fine entries) :
    ∃ d, empty.pushTrees entries = .ok d ∧ d.names = entries.map Prod.fst := by
  obtain ⟨bodies, hbodies⟩ := exists_reads h.bodies
  have hnodup : (bodies.map Prod.fst).Nodup := hbodies.names ▸ h.distinct
  refine ⟨⟨bodies, hnodup⟩, pushTrees_eq_ok_iff.mpr ⟨h.distinct, bodies, hbodies, rfl⟩, ?_⟩
  exact hbodies.names

/-- Entries are fine, or one of them is the first problem. -/
theorem fine_or_firstProblem (entries : List (String × Tree)) :
    Fine entries ∨ ∃ before key t, FirstProblem entries before key t := by
  induction entries using List.reverseRecOn with
  | nil => exact .inl ⟨List.nodup_nil, by simp⟩
  | append_singleton entries x ih =>
    obtain ⟨key, t⟩ := x
    rcases ih with hfine | ⟨before, key', t', ⟨after, rfl⟩, hbefore, hproblem⟩
    · by_cases hkey : key ∈ entries.map Prod.fst
      · exact .inr ⟨entries, key, t, ⟨[], rfl⟩, hfine, .inl hkey⟩
      · by_cases ht : ∃ b, SaysBody t b
        · refine .inl ⟨?_, List.forall_mem_append.mpr ⟨hfine.bodies, by simpa using ht⟩⟩
          rw [List.map_append, List.nodup_append]
          refine ⟨hfine.distinct, by simp, ?_⟩
          rintro a ha b hb rfl
          obtain rfl : a = key := List.mem_singleton.mp hb
          exact hkey ha
        · exact .inr ⟨entries, key, t, ⟨[], rfl⟩, hfine, .inr ht⟩
    · exact .inr ⟨before, key', t', ⟨after ++ [(key, t)], by simp⟩, hbefore, hproblem⟩

/-! ### Documents -/

/-- Where an entry is reported that says no body: at its key, unless the reader stops at a value in
it. -/
def entryLocation (key : String) (t : Tree) : String :=
  match t.refused? with
  | none => key
  | some found => Branch.way (.key key :: found.2)

variable {entries left before : List (String × Tree)} {ending left' : Ending}
  {key : String} {t : Tree}

/-- A draft comes of a complete document with fine entries, and of nothing else. -/
theorem ofReading_eq_ok_iff {r r' : Reading} (h : Reading.Cut r r') {d : Draft} :
    ofReading r' = .ok d ↔ ∃ entries, r = .mapping entries .complete ∧
      (entries.map Prod.fst).Nodup ∧ Reads entries d.entries := by
  cases h with
  | other description => simp [ofReading]
  | broken f => simp [ofReading]
  | @mapping entries left ending left' cut =>
    constructor
    · intro h
      simp only [ofReading] at h
      split at h
      · cases h
      · next d' hd' =>
        cases left' with
        | broken f => cases h
        | brokenValue key f =>
          simp only [finish] at h
          split at h <;> cases h
        | complete =>
          cases h
          obtain ⟨hnodup, bodies, hreads, heq⟩ := pushTrees_eq_ok_iff.mp hd'
          cases cut.eq_of_complete
          exact ⟨_, rfl, hnodup, heq ▸ hreads⟩
    · rintro ⟨_, ⟨⟩, hnodup, hreads⟩
      have hfree : ∀ x ∈ entries, x.2.refused? = none := by
        intro x hx
        obtain ⟨b, hb⟩ := hreads.bodies x hx
        exact hb.refused?_eq_none
      rw [← List.append_nil entries] at cut
      obtain ⟨_, _, hrest, heq⟩ := cut.append hfree
      cases hrest
      cases heq
      have hd : empty.pushTrees entries = .ok d :=
        pushTrees_eq_ok_iff.mpr ⟨hnodup, d.entries, hreads, rfl⟩
      simp [ofReading, hd, finish]

/-- The first problem decides, whatever stands after it. -/
theorem ofReading_of_firstProblem (h : Cut (entries, ending) (left, left'))
    (hp : FirstProblem entries before key t) :
    (key ∈ before.map Prod.fst →
      ofReading (.mapping left left') = .error (.repeatedKey key)) ∧
    (key ∉ before.map Prod.fst → ∃ f, ofReading (.mapping left left') = .error f ∧
      f.location = entryLocation key t) := by
  obtain ⟨⟨after, rfl⟩, hfine, hproblem⟩ := hp
  have hfree : ∀ x ∈ before, x.2.refused? = none := by
    intro x hx
    obtain ⟨b, hb⟩ := hfine.bodies x hx
    exact hb.refused?_eq_none
  obtain ⟨_, _, hrest, heq⟩ := h.append hfree
  cases heq
  obtain ⟨d, hd, hnames⟩ := hfine.exists_pushTrees
  rw [← hnames] at hproblem ⊢
  simp only [ofReading, pushTrees_append hd]
  cases hrest with
  | @refused _ _ _ _ f found first reports =>
    simp only [pushTrees, finish]
    refine ⟨fun hkey => if_pos hkey, fun hkey => ⟨_, if_neg hkey, ?_⟩⟩
    have hway : f.way.meant = .key key :: found.2 := congrArg Prod.snd reports
    simp only [entryLocation, first, Fault.location, hway]
  | kept free tail =>
    refine ⟨fun hkey => ?_, fun hkey => ⟨.entry key, ?_, ?_⟩⟩
    · simp only [pushTrees, pushTree_of_mem hkey]
    · simp only [pushTrees, pushTree_of_notMem hkey (hproblem.resolve_left hkey)]
    · simp [entryLocation, free, Fault.location]

/-- What is read from a text is what its document leaves when values are refused. -/
theorem cut_read (format : Format) (text : List Char) :
    Reading.Cut (whole format text) (Document.read format text) := by
  cases format with
  | yaml => exact Document.cut_yaml text
  | json => exact Document.cut_json text

theorem stopsBelowKey (format : Format) (text : List Char) :
    (Document.read format text).StopsBelowKey := by
  cases format with
  | yaml => exact Document.Yaml.stopsBelowKey false text
  | json => exact Document.Json.stopsBelowKey text

/-- A reading that breaks off in the value of a new key after fine entries. -/
theorem ofReading_of_brokenValue {stop : Document.Stop} (hfine : Fine entries)
    (hkey : key ∉ entries.map Prod.fst) :
    ofReading (.mapping entries (.brokenValue key stop)) =
      .error (.document stop.way stop.fault) := by
  obtain ⟨d, hd, hnames⟩ := hfine.exists_pushTrees
  rw [← hnames] at hkey
  simp only [ofReading, hd, finish, if_neg hkey]

/-- A text is read as a draft exactly if its document is a mapping with different keys in which
every value says a body, and the draft then has these bodies under their keys in order. Otherwise
the document is no mapping, or the first entry that repeats a key or says no body is reported,
whatever follows it in the text: a repeated key at the top, whatever its value is, and another
entry at its key, or on the way from the key to the first value that the reader refuses. A text
that breaks off in the value of a new key is reported on the way from that key to the place. -/
theorem grammar_or_first_problem (format : Format) (text : String) :
    (∀ d, parse format text = .ok d ↔
      ∃ entries, whole format text.toList = .mapping entries .complete ∧
        (entries.map Prod.fst).Nodup ∧ Reads entries d.entries) ∧
    (∀ found, whole format text.toList = .other found →
      parse format text = .error (.notMapping found) ∧ (Fault.notMapping found).location = ".") ∧
    (∀ entries, whole format text.toList = .mapping entries .complete →
      (∀ d, parse format text ≠ .ok d) → ∃ before key t, FirstProblem entries before key t) ∧
    (∀ entries ending before key t, whole format text.toList = .mapping entries ending →
      FirstProblem entries before key t →
      (key ∈ before.map Prod.fst → parse format text = .error (.repeatedKey key) ∧
        (Fault.repeatedKey key).location = ".") ∧
      (key ∉ before.map Prod.fst → ∃ f, parse format text = .error f ∧
        f.location = entryLocation key t)) ∧
    (∀ entries key stop,
      Document.read format text.toList = .mapping entries (.brokenValue key stop) →
      Fine entries → key ∉ entries.map Prod.fst → ∃ f, parse format text = .error f ∧
        f.location = Branch.way stop.way.meant ∧ ∃ way, stop.way.meant = .key key :: way) := by
  have hcut := cut_read format text.toList
  have hbelow := stopsBelowKey format text.toList
  unfold parse
  generalize Document.read format text.toList = r at hcut hbelow ⊢
  refine ⟨fun d => ofReading_eq_ok_iff hcut, ?_, ?_, ?_, ?_⟩
  · intro found hfound
    rw [hfound] at hcut
    cases hcut
    exact ⟨rfl, rfl⟩
  · intro entries hentries hno
    rcases fine_or_firstProblem entries with hfine | hproblem
    · obtain ⟨bodies, hbodies⟩ := exists_reads hfine.bodies
      have hnodup : (bodies.map Prod.fst).Nodup := hbodies.names ▸ hfine.distinct
      refine absurd ?_ (hno ⟨bodies, hnodup⟩)
      exact (ofReading_eq_ok_iff hcut).mpr ⟨entries, hentries, hfine.distinct, hbodies⟩
    · exact hproblem
  · intro entries ending before key t hentries hproblem
    rw [hentries] at hcut
    cases hcut with
    | mapping cut =>
      obtain ⟨hrepeated, hentry⟩ := ofReading_of_firstProblem cut hproblem
      exact ⟨fun hkey => ⟨hrepeated hkey, rfl⟩, hentry⟩
  · rintro entries key stop rfl hfine hkey
    exact ⟨_, ofReading_of_brokenValue hfine hkey, rfl, hbelow _ _ _ rfl⟩

end Draft

namespace Problems

open Draft

/-- The value of `A` has an integer that 64 bits do not hold. -/
def wideText : String := "A: {x: 18446744073709551616}"

/-- The value of `A`. -/
def wide : Tree :=
  .mapping [(.text "x", .refused (.wide 18446744073709551616) (.integer 18446744073709551616))]

theorem whole_wideText : whole .yaml wideText.toList = .mapping [("A", wide)] .complete := by
  with_unfolding_all rfl

/-- A value with a refused part says no body. -/
theorem firstProblem_refused (f : Document.Fault) (t : Tree) :
    FirstProblem [("A", .mapping [(.text "x", .refused f t)])] [] "A"
      (.mapping [(.text "x", .refused f t)]) where
  place := ⟨[], rfl⟩
  fine := ⟨by simp, by simp⟩
  problem := by
    refine .inr (bodyOf?_eq_none_iff.mp ?_)
    simp [bodyOf?, membersOf?, textOf?, valueOf?]

/-- The first problem says no body, but it is not reported at its key. -/
theorem wide_not_at_key : whole .yaml wideText.toList = .mapping [("A", wide)] .complete ∧
    FirstProblem [("A", wide)] [] "A" wide ∧
    ∃ f, parse .yaml wideText = .error f ∧ f.location ≠ "A" := by
  have hparse : (parse .yaml wideText).map (fun _ => ()) = .error (.document
      ⟨[.key "A", .key "x"], [.key "A", .key "x"]⟩ (.wide 18446744073709551616)) := by
    decide +kernel
  exact ⟨whole_wideText, firstProblem_refused _ _, _, map_eq_error_iff.mp hparse,
    by decide +kernel⟩

/-- A tag that does not fit its value. -/
def tagText : String := "A: {x: !!int u8}"

def tagFault : Document.Fault := .tag "invalid value: string \"u8\", expected an integer"

theorem whole_tagText : whole .yaml tagText.toList =
    .mapping [("A", .mapping [(.text "x", .refused tagFault (.text "u8"))])] .complete := by
  with_unfolding_all rfl

/-- The second value says no body either. -/
def repeatedText : String := "A: u8\nA: [5]"

theorem whole_repeatedText : whole .yaml repeatedText.toList =
    .mapping [("A", .text "u8"), ("A", .list [.integer 5])] .complete := by
  with_unfolding_all rfl

/-- The text ends in the list. -/
def brokenText : String := "A: \x7bx: [u8, "

theorem read_brokenText : Document.read .yaml brokenText.toList = .mapping [] (.brokenValue "A"
    ⟨.malformed, ⟨[.key "A", .key "x", .item 1], [.key "A", .key "x", .item 1]⟩⟩) := by
  with_unfolding_all rfl

theorem problems_reported :
    (∃ f, parse .yaml wideText = .error f ∧ f.location = "A.x") ∧
      (∃ f, parse .yaml tagText = .error f ∧ f.location = "A.x") ∧
      parse .yaml repeatedText = .error (.repeatedKey "A") ∧
      ∃ f, parse .yaml brokenText = .error f ∧ f.location = "A.x[1]" := by
  obtain ⟨-, -, -, hwide, -⟩ := grammar_or_first_problem .yaml wideText
  obtain ⟨-, -, -, htag, -⟩ := grammar_or_first_problem .yaml tagText
  obtain ⟨-, -, -, hrepeated, -⟩ := grammar_or_first_problem .yaml repeatedText
  obtain ⟨-, -, -, -, hbroken⟩ := grammar_or_first_problem .yaml brokenText
  refine ⟨?_, ?_, ?_, ?_⟩
  · obtain ⟨f, hf, hlocation⟩ :=
      (hwide _ _ [] "A" wide whole_wideText (firstProblem_refused _ _)).2 (by simp)
    exact ⟨f, hf, hlocation.trans (by decide +kernel)⟩
  · obtain ⟨f, hf, hlocation⟩ :=
      (htag _ _ [] "A" _ whole_tagText (firstProblem_refused _ _)).2 (by simp)
    exact ⟨f, hf, hlocation.trans (by decide +kernel)⟩
  · have hfine : Fine [("A", .text "u8")] := ⟨by simp, by simpa using ⟨_, .aliasOf "u8"⟩⟩
    exact ((hrepeated _ _ [("A", .text "u8")] "A" (.list [.integer 5]) whole_repeatedText
      ⟨⟨_, rfl⟩, hfine, .inl (by simp)⟩).1 (by simp)).1
  · obtain ⟨f, hf, hlocation, -⟩ := hbroken _ _ _ read_brokenText ⟨by simp, by simp⟩ (by simp)
    exact ⟨f, hf, hlocation.trans (by decide +kernel)⟩

end Problems

end TreeSchema
