import Mathlib.Data.List.GetD
import TreeSchema.Job
import TreeSchema.Proofs.Checked
import TreeSchema.Proofs.Files.Store

/-!
# Replacing a file

A text is written to a temporary file, which then takes the place of the output. Whatever fails on
the way, the temporary file is gone afterwards and all other files are as they were.
-/

namespace TreeSchema

namespace Store

variable {s s₀ s₁ : Store} {d : Location} {path name : String} {bytes : ByteArray}

/-! ### Names of temporary files -/

theorem mem_tempEnding {places n : ℕ} {c : Char} (h : c ∈ tempEnding places n) :
    c ∈ tempAlphabet := by
  induction places generalizing n with
  | zero => cases h
  | succ places ih =>
    rcases List.mem_cons.mp h with rfl | h
    · have hlt : n % 62 < tempAlphabet.length := Nat.mod_lt n (by decide)
      rw [List.getD_eq_getElem _ _ hlt]
      exact List.getElem_mem hlt
    · exact ih h

theorem length_tempEnding (places n : ℕ) : (tempEnding places n).length = places := by
  induction places generalizing n with
  | zero => rfl
  | succ places ih => simp [tempEnding, ih]

theorem tempAlphabet_plain : ∀ c ∈ tempAlphabet, c ≠ '/' ∧ c.toNat ≠ 0 ∧ c.utf8Size = 1 := by
  have hall : (tempAlphabet.all fun c => c != '/' && c.toNat != 0 && c.utf8Size == 1) = true := by
    decide
  simpa [List.all_eq_true, and_assoc] using hall

theorem toList_tempName (n : ℕ) : (tempName n).toList = ".tmp".toList ++ tempEnding 6 n := by
  simp [tempName]

theorem slash_notMem_tempName (n : ℕ) : '/' ∉ (tempName n).toList := by
  rw [toList_tempName, List.mem_append, not_or]
  exact ⟨by decide, fun h => (tempAlphabet_plain _ (mem_tempEnding h)).1 rfl⟩

theorem utf8ByteSize_ofList {cs : List Char} (h : ∀ c ∈ cs, c.utf8Size = 1) :
    (String.ofList cs).utf8ByteSize = cs.length := by
  induction cs with
  | nil => rfl
  | cons c cs ih =>
    have hc := h c List.mem_cons_self
    have hcs := ih fun x hx => h x (List.mem_cons_of_mem _ hx)
    rw [String.ofList_cons, String.utf8ByteSize_append, String.utf8ByteSize_singleton, hc, hcs,
      List.length_cons, Nat.add_comm]

theorem utf8ByteSize_tempName (n : ℕ) : (tempName n).utf8ByteSize = 10 := by
  have hending : (String.ofList (tempEnding 6 n)).utf8ByteSize = (tempEnding 6 n).length :=
    utf8ByteSize_ofList fun c hc => (tempAlphabet_plain c (mem_tempEnding hc)).2.2
  rw [tempName, String.utf8ByteSize_append, hending, length_tempEnding]
  decide

/-- The name of a temporary file in a directory whose path is known. -/
theorem names_temp {directory : String} (hfind : s.find directory = .ok d)
    (hd : s.isDirectory d = true) (n : ℕ)
    (hr : refusal? (directory ++ "/" ++ tempName n) = none) :
    s.Names (directory ++ "/" ++ tempName n) d (tempName n) where
  allowed := hr
  way := by
    refine ⟨Path.pieces directory, ?_, ?_⟩
    · rw [Path.pieces_append_slash, Path.pieces_of_notMem (slash_notMem_tempName n)]
    · unfold Store.find at hfind
      split at hfind
      · cases hfind
      · exact hfind
  directory := hd
  short := by simp [isTooLong, utf8ByteSize_tempName]
  plain := by
    have hsize := utf8ByteSize_tempName n
    refine ⟨?_, ?_, ?_⟩ <;> rintro h <;> rw [h] at hsize <;> revert hsize <;> decide

/-! ### A store with a temporary file -/

/-- One file is new or has new contents, and nothing else has changed. -/
def Replaced (s₀ s₁ : Store) (loc : Location) (bytes : ByteArray) : Prop :=
  ∀ l, s₁.item? l = if l = loc then some (.file bytes) else s₀.item? l

theorem replaced_set (s : Store) {loc : Location} (hloc : loc ≠ []) (bytes : ByteArray) :
    Replaced s (s.set loc (.file bytes)) loc bytes := item?_set s hloc (.file bytes)

theorem Replaced.set {loc : Location} {old : ByteArray} (h : Replaced s₀ s₁ loc old)
    (hloc : loc ≠ []) (bytes : ByteArray) :
    Replaced s₀ (s₁.set loc (.file bytes)) loc bytes := by
  intro l
  rw [item?_set s₁ hloc, h l]
  split <;> rfl

theorem Replaced.isDirectory {loc : Location} (h : Replaced s₀ s₁ loc bytes)
    (hloc : s₀.isDirectory loc = false) (l : Location) : s₁.isDirectory l = s₀.isDirectory l := by
  by_cases hl : l = loc
  · rw [hl, hloc]
    simp [Store.isDirectory, h loc]
  · simp [Store.isDirectory, h l, hl]

theorem Replaced.file? {loc : Location} (h : Replaced s₀ s₁ loc bytes) :
    s₁.file? loc = some bytes := by
  simp [Store.file?, h loc]

theorem Replaced.file?_of_ne {loc l : Location} (h : Replaced s₀ s₁ loc bytes) (hl : l ≠ loc) :
    s₁.file? l = s₀.file? l :=
  file?_congr (by rw [h l, if_neg hl])

/-- Without a file that was not there before, the store is the one before it. -/
theorem Replaced.item?_erase {loc : Location} (h : Replaced s₀ s₁ loc bytes) (hloc : loc ≠ [])
    (hfree : s₀.item? loc = none) (l : Location) : (s₁.erase loc).item? l = s₀.item? l := by
  rw [Store.item?_erase s₁ hloc, h l]
  by_cases hl : l = loc
  · rw [if_pos hl, hl, hfree]
  · rw [if_neg hl, if_neg hl]

/-- The second store has one file more than the first, under a path that can be used. -/
def HasTemp (s₀ s₁ : Store) (temp : String) (bytes : ByteArray) : Prop :=
  ∃ d name, s₀.Names temp d name ∧ s₀.item? (d ++ [name]) = none ∧
    Replaced s₀ s₁ (d ++ [name]) bytes

theorem HasTemp.isDirectory {temp : String} (h : HasTemp s₀ s₁ temp bytes) (l : Location) :
    s₁.isDirectory l = s₀.isDirectory l := by
  obtain ⟨d, name, -, hfree, hrep⟩ := h
  exact hrep.isDirectory (by simp [Store.isDirectory, hfree]) l

/-- A temporary file is made under a free name, in a directory that is there. -/
theorem createTemp_cases {directory : String} {created : String × Store}
    (h : s.createTemp directory = .ok created) : ∃ d n, s.find directory = .ok d ∧
      s.isDirectory d = true ∧ s.item? (d ++ [tempName n]) = none ∧
      refusal? (directory ++ "/" ++ tempName n) = none ∧
      created = (directory ++ "/" ++ tempName n,
        s.set (d ++ [tempName n]) (.file ByteArray.empty)) := by
  unfold createTemp at h
  split at h
  · cases h
  · next d hfind =>
    split at h
    · cases h
    · next hd =>
      split at h
      · cases h
      · next name hname =>
        split at h
        · cases h
        · next hr =>
          cases h
          have hfree : s.item? (d ++ [name]) = none := by
            simpa using List.find?_some hname
          obtain ⟨n, -, rfl⟩ := List.mem_map.mp (List.mem_of_find?_eq_some hname)
          exact ⟨d, n, hfind, by simpa using hd, hfree, hr, rfl⟩

theorem hasTemp_of_createTemp {directory temp : String}
    (h : s.createTemp directory = .ok (temp, s₁)) : HasTemp s s₁ temp ByteArray.empty := by
  obtain ⟨d, n, hfind, hd, hfree, hr, hcreated⟩ := createTemp_cases h
  obtain ⟨rfl, rfl⟩ := Prod.mk.inj hcreated
  exact ⟨d, tempName n, names_temp hfind hd n hr, hfree, replaced_set s (by simp) _⟩

theorem HasTemp.writeBytes {temp : String} {old : ByteArray} (h : HasTemp s₀ s₁ temp old)
    (bytes : ByteArray) :
    ∃ s₂, s₁.writeBytes temp bytes = .ok s₂ ∧ HasTemp s₀ s₂ temp bytes := by
  have hdir := h.isDirectory
  obtain ⟨d, name, hnames, hfree, hrep⟩ := h
  have hnames₁ : s₁.Names temp d name := hnames.mono fun l hl => by rwa [hdir l]
  have hfile : s₁.isDirectory (d ++ [name]) = false := by
    rw [hdir]
    simp [Store.isDirectory, hfree]
  refine ⟨s₁.set (d ++ [name]) (.file bytes), ?_, d, name, hnames, hfree, hrep.set (by simp) bytes⟩
  simp [Store.writeBytes, hnames₁.target, Target.isPlain, Target.location, hnames.plain, hfile]

theorem HasTemp.find {temp : String} (h : HasTemp s₀ s₁ temp bytes) :
    ∃ loc, loc ≠ [] ∧ s₁.find temp = .ok loc ∧ s₀.item? loc = none ∧ Replaced s₀ s₁ loc bytes := by
  have hdir := h.isDirectory
  obtain ⟨d, name, hnames, hfree, hrep⟩ := h
  have hnames₁ : s₁.Names temp d name := hnames.mono fun l hl => by rwa [hdir l]
  exact ⟨d ++ [name], by simp, hnames₁.find (by simp [hrep (d ++ [name])]), hfree, hrep⟩

theorem HasTemp.remove {temp : String} (h : HasTemp s₀ s₁ temp bytes) :
    (s₁.remove temp).item? = s₀.item? := by
  obtain ⟨loc, hloc, hfind, hfree, hrep⟩ := h.find
  funext l
  rw [Store.remove, hfind]
  exact hrep.item?_erase hloc hfree l

/-- The temporary file takes the place that a path names. -/
theorem HasTemp.rename {temp : String} {s₂ : Store} (h : HasTemp s₀ s₁ temp bytes)
    (hr : s₁.rename temp path = .ok s₂) :
    ∃ d name, s₀.Names path d name ∧ s₀.isDirectory (d ++ [name]) = false ∧
      Replaced s₀ s₂ (d ++ [name]) bytes := by
  obtain ⟨loc, hloc, hfind, hfree, hrep⟩ := h.find
  unfold Store.rename at hr
  rw [hfind] at hr
  split at hr
  · next heq => cases heq
  · cases hr
  · cases hr
  · next loc' t heq htarget =>
    cases heq
    split_ifs at hr with hplain hslash hdir
    rw [hrep loc, if_pos rfl] at hr
    cases hr
    have hnames₁ := names_of_target htarget (by simpa using hplain) (by simpa using hslash)
    refine ⟨t.directory, t.name, hnames₁.mono fun l hl => by rwa [← h.isDirectory l], ?_, ?_⟩
    · rw [← h.isDirectory]
      simpa [Target.location] using hdir
    · intro l
      rw [item?_set _ (by simp [Target.location]), hrep.item?_erase hloc hfree]
      rfl

end Store

/-! ### Runs -/

theorem FileProgram.run_map {α β : Type} (f : α → β) (p : FileProgram α) (faults : Store.Faults)
    (s : Store) : (p.map f).run faults s = (f (p.run faults s).1, (p.run faults s).2) := by
  induction p generalizing faults s with
  | done a => rfl
  | readText path next ih => exact ih _ _ _
  | createDirs path next ih => exact ih _ _ _
  | createTemp directory next ih => exact ih _ _ _
  | writeText path text next ih => exact ih _ _ _
  | rename source target next ih => exact ih _ _ _
  | remove path next ih => exact ih _ _

namespace Job

open Store

variable {s s₀ s₁ : Store} {path : String}

/-- The answer to a request is that of the store, unless the request fails by itself. -/
theorem answer_eq_ok {α : Type} {faults : Faults} {r : Except OsError α} {a : α}
    (h : answer faults r = .ok a) : r = .ok a ∧ faults.head?.join = none := by
  unfold answer at h
  split at h
  · cases h
  · next hnone => exact ⟨h, hnone⟩

/-- Making the directories above a path. -/
def prepared (path : String) (s : Store) : Except OsError Unit × Store :=
  createDirs ((Path.components (directoryOf path)).length + 1) (directoryOf path) s

theorem grows_prepared (path : String) (s : Store) : Grows s (prepared path s).2 :=
  grows_createDirs _ _ s

/-- What becomes of a store in which a file is to be replaced: the reason why not is known and
nothing has changed, or a temporary file could be made and has taken the place of the file. -/
def Replaces (s₀ : Store) (path : String) (bytes : ByteArray) (r : Except Error Unit × Store) :
    Prop :=
  (∃ cause, r.1 = .error (.unwritable path cause)) ∧ r.2.item? = s₀.item? ∨
    r.1 = .ok () ∧ (∃ created, s₀.createTemp (directoryOf path) = .ok created) ∧
      ∃ d name, s₀.Names path d name ∧ s₀.isDirectory (d ++ [name]) = false ∧
        Replaced s₀ r.2 (d ++ [name]) bytes

theorem replaces_discard {temp : String} {bytes written : ByteArray}
    (h : HasTemp s₀ s₁ temp written) (cause : OsError) (faults : Faults) :
    Replaces s₀ path bytes
      ((discard temp (.error (.unwritable path cause) : Except Error Unit)).run faults s₁) :=
  .inl ⟨⟨cause, rfl⟩, h.remove⟩

/-- Directories may be made, and then the file is replaced or nothing changes. -/
theorem run_writeAtomic (path text : String) (faults : Faults) (s : Store) :
    Replaces (prepared path s).2 path text.toUTF8 ((writeAtomic path text).run faults s) := by
  have hprepared : Store.createDirs ((Path.components (directoryOf path)).length + 1)
      (directoryOf path) s = prepared path s := rfl
  simp only [writeAtomic, FileProgram.run, hprepared]
  obtain ⟨made, s₀⟩ := prepared path s
  cases hmade : answer faults made with
  | error cause => exact .inl ⟨⟨cause, rfl⟩, rfl⟩
  | ok u =>
    simp only [FileProgram.run]
    cases htemp : answer faults.tail (s₀.createTemp (directoryOf path)) with
    | error cause => exact .inl ⟨⟨cause, rfl⟩, rfl⟩
    | ok created =>
      obtain ⟨temp, s₁⟩ := created
      have hcreated := (answer_eq_ok htemp).1
      have h₁ := hasTemp_of_createTemp hcreated
      obtain ⟨s₂, hwrite, h₂⟩ := h₁.writeBytes (reached faults.tail.tail text.toUTF8)
      simp only [Except.map, FileProgram.run, after, hwrite]
      cases hanswer : answer faults.tail.tail (.ok () : Except OsError Unit) with
      | error cause => exact replaces_discard h₂ cause _
      | ok u =>
        -- All of the text was written.
        have hall : reached faults.tail.tail text.toUTF8 = text.toUTF8 := by
          rw [reached, (answer_eq_ok hanswer).2]
        rw [hall] at h₂
        simp only [FileProgram.run]
        cases hrename : answer faults.tail.tail.tail (s₂.rename temp path) with
        | error cause => exact replaces_discard h₂ cause _
        | ok s₃ => exact .inr ⟨rfl, ⟨_, hcreated⟩, h₂.rename (answer_eq_ok hrename).1⟩

theorem fromUTF8?_eq_some_iff {bytes : ByteArray} {text : String} :
    String.fromUTF8? bytes = some text ↔ bytes = text.toUTF8 := by
  unfold String.fromUTF8?
  constructor
  · intro h
    split at h
    · cases h
      rfl
    · cases h
  · rintro rfl
    exact dif_pos text.isValidUTF8

/-- What a run has before it comes to the output: a text, or the reason why there is none. -/
def generated (c : Config) (reading : Except OsError String) : Except Error String :=
  match reading with
  | .error cause => .error (.unreadable c.schemaPath cause)
  | .ok source =>
    (Schema.parse c.schemaPath (Path.format c.schemaPath) source).bind fun schema =>
      Artifact.generate schema c

/-- The schema is read, and a text is generated from it. -/
def Generates (c : Config) (faults : Faults) (s : Store) (text : String) : Prop :=
  ∃ source schema, answer faults (s.readText c.schemaPath) = .ok source ∧
    Schema.parse c.schemaPath (Path.format c.schemaPath) source = .ok schema ∧
    Artifact.generate schema c = .ok text

theorem generates_iff {c : Config} {faults : Faults} {text : String} : Generates c faults s text ↔
    generated c (answer faults (s.readText c.schemaPath)) = .ok text := by
  unfold Generates generated
  cases answer faults (s.readText c.schemaPath) with
  | error cause => simp
  | ok source =>
    constructor
    · rintro ⟨_, schema, ⟨⟩, hschema, htext⟩
      exact Checked.bind_eq_ok_iff.mpr ⟨schema, hschema, htext⟩
    · intro h
      obtain ⟨schema, hschema, htext⟩ := Checked.bind_eq_ok_iff.mp h
      exact ⟨source, schema, rfl, hschema, htext⟩

theorem run_eq (c : Config) (checkOnly : Bool) (faults : Faults) (s : Store) :
    (run c checkOnly).run faults s =
      match generated c (answer faults (s.readText c.schemaPath)) with
      | .error e => (.error e, s)
      | .ok text =>
        (if checkOnly then compare c.outPath text else write c.outPath text).run faults.tail s := by
  simp only [run, load, FileProgram.bind, FileProgram.run, generated]
  cases answer faults (s.readText c.schemaPath) with
  | error cause => rfl
  | ok source =>
    simp only [FileProgram.bind]
    cases (Schema.parse c.schemaPath (Path.format c.schemaPath) source).bind fun schema =>
      Artifact.generate schema c with
    | error e => rfl
    | ok text => rfl

/-- What comparing a text with a file says, by what reading the file gives. -/
def comparison (path text : String) : Except OsError ByteArray → Except Error Outcome
  | .ok bytes =>
    match String.fromUTF8? bytes with
    | some current => .ok (if current = text then .upToDate path else .stale path)
    | none => .error (.unwritable path .notText)
  | .error .notFound => .ok (.stale path)
  | .error cause => .error (.unwritable path cause)

theorem run_compare (path text : String) (faults : Faults) (s : Store) :
    (compare path text).run faults s =
      (comparison path text (answer faults (s.readBytes path)), s) := by
  simp only [compare, FileProgram.run, readText, answer]
  cases faults.head?.join with
  | some fault =>
    obtain ⟨cause, reached⟩ := fault
    cases cause <;> rfl
  | none =>
    cases s.readBytes path with
    | error cause => cases cause <;> rfl
    | ok bytes => cases hb : String.fromUTF8? bytes <;> simp only [comparison, hb] <;> rfl

section Comparison

variable {text : String} {current : Except OsError ByteArray}

theorem comparison_of_text (path text other : String) :
    comparison path text (.ok other.toUTF8) =
      .ok (if other = text then .upToDate path else .stale path) := by
  simp only [comparison, fromUTF8?_eq_some_iff.mpr rfl]

/-- What is read is a text, or nothing, or something that cannot be compared. -/
theorem comparison_cases (path text : String) (current : Except OsError ByteArray) :
    (∃ other : String, current = .ok other.toUTF8) ∨ current = .error .notFound ∨
      ∃ cause, comparison path text current = .error (.unwritable path cause) := by
  cases current with
  | error cause =>
    by_cases h : cause = .notFound
    · exact .inr (.inl (by rw [h]))
    · refine .inr (.inr ⟨cause, ?_⟩)
      cases cause <;> first | rfl | exact absurd rfl h
  | ok bytes =>
    cases hb : String.fromUTF8? bytes with
    | none => exact .inr (.inr ⟨.notText, by simp only [comparison, hb]⟩)
    | some other => exact .inl ⟨other, by rw [fromUTF8?_eq_some_iff.mp hb]⟩

theorem comparison_eq_upToDate_iff :
    comparison path text current = .ok (.upToDate path) ↔ current = .ok text.toUTF8 := by
  constructor
  · intro h
    rcases comparison_cases path text current with ⟨other, rfl⟩ | rfl | ⟨cause, hc⟩
    · rw [comparison_of_text] at h
      by_cases he : other = text
      · rw [he]
      · simp [he] at h
    · cases h
    · rw [hc] at h
      cases h
  · rintro rfl
    rw [comparison_of_text, if_pos rfl]

theorem comparison_eq_stale_iff : comparison path text current = .ok (.stale path) ↔
    current = .error .notFound ∨ ∃ other, other ≠ text ∧ current = .ok other.toUTF8 := by
  constructor
  · intro h
    rcases comparison_cases path text current with ⟨other, rfl⟩ | rfl | ⟨cause, hc⟩
    · rw [comparison_of_text] at h
      by_cases he : other = text
      · simp [he] at h
      · exact .inr ⟨other, he, rfl⟩
    · exact .inl rfl
    · rw [hc] at h
      cases h
  · rintro (rfl | ⟨other, hne, rfl⟩)
    · rfl
    · rw [comparison_of_text, if_neg hne]

theorem comparison_eq_error (hfound : current ≠ .error .notFound)
    (htext : ∀ other : String, current ≠ .ok other.toUTF8) :
    ∃ cause, comparison path text current = .error (.unwritable path cause) := by
  rcases comparison_cases path text current with ⟨other, ho⟩ | hnone | hcause
  · exact absurd ho (htext other)
  · exact absurd hnone hfound
  · exact hcause

end Comparison

/-- What is left after writing: all files as they were, or all but the output, which holds the text
and had a temporary file beside it. -/
theorem run_write (path text : String) (faults : Faults) (s : Store) :
    (∃ cause, ((write path text).run faults s).1 = .error (.unwritable path cause)) ∧
        ((write path text).run faults s).2.file? = s.file? ∨
      ((write path text).run faults s).1 = .ok (.written path text.utf8ByteSize) ∧
        KeepsDirectories s ((write path text).run faults s).2 ∧
        (∃ created, (prepared path s).2.createTemp (directoryOf path) = .ok created) ∧
        ∃ d name, ((write path text).run faults s).2.Names path d name ∧
          ((write path text).run faults s).2.file? (d ++ [name]) = some text.toUTF8 ∧
          ∀ l ≠ d ++ [name], ((write path text).run faults s).2.file? l = s.file? l := by
  have hgrows := grows_prepared path s
  simp only [write, FileProgram.run_map]
  rcases run_writeAtomic path text faults s with
    ⟨⟨cause, hr⟩, hsame⟩ | ⟨hr, hcreated, d, name, hnames, hdir, hrep⟩
  · refine .inl ⟨⟨cause, by rw [hr]; rfl⟩, ?_⟩
    rw [← hgrows.file?]
    funext l
    exact file?_congr (congrFun hsame l)
  · have hkeep : KeepsDirectories (prepared path s).2 ((writeAtomic path text).run faults s).2 := by
      intro l hl
      rwa [hrep.isDirectory hdir]
    refine .inr ⟨by rw [hr]; rfl, ?_, hcreated, d, name, hnames.mono hkeep, hrep.file?, ?_⟩
    · intro l hl
      exact hkeep l (hgrows.keepsDirectories l hl)
    · intro l hl
      rw [hrep.file?_of_ne hl, hgrows.file?]

/-- A run that fails leaves every file as it was, and one that succeeds replaces the output alone,
by the text that is generated for the schema that was read. This holds whichever requests fail by
themselves. A run that only checks leaves the store as it is and tells the three cases apart that
reading the output has: the same text, no file or another text, and anything else. -/
theorem run_all_or_nothing (c : Config) (faults : Faults) (s : Store) :
    (∀ e, ((run c false).run faults s).1 = .error e →
      ((run c false).run faults s).2.file? = s.file?) ∧
    (∀ outcome, ((run c false).run faults s).1 = .ok outcome →
      ∃ text, Generates c faults s text ∧ outcome = .written c.outPath text.utf8ByteSize ∧
        ((run c false).run faults s).2.readBytes c.outPath = .ok text.toUTF8 ∧
        ∀ l, ((run c false).run faults s).2.find c.outPath ≠ .ok l →
          ((run c false).run faults s).2.file? l = s.file? l) ∧
    ((run c true).run faults s).2 = s ∧
    (∀ outcome, ((run c true).run faults s).1 = .ok outcome → ∃ text, Generates c faults s text) ∧
    ∀ text, Generates c faults s text →
      let current := answer faults.tail (s.readBytes c.outPath)
      (((run c true).run faults s).1 = .ok (.upToDate c.outPath) ↔ current = .ok text.toUTF8) ∧
      (((run c true).run faults s).1 = .ok (.stale c.outPath) ↔
        current = .error .notFound ∨ ∃ other, other ≠ text ∧ current = .ok other.toUTF8) ∧
      ((current ≠ .error .notFound ∧ ∀ other : String, current ≠ .ok other.toUTF8) →
        ∃ cause, ((run c true).run faults s).1 = .error (.unwritable c.outPath cause)) := by
  simp only [run_eq, generates_iff]
  cases generated c (answer faults (s.readText c.schemaPath)) with
  | error e => simp
  | ok text =>
    simp only [Bool.false_eq_true, if_false, if_true, run_compare, Except.ok.injEq]
    refine ⟨?_, ?_, trivial, fun _ _ => ⟨text, rfl⟩, ?_⟩
    · intro e he
      rcases run_write c.outPath text faults.tail s with ⟨-, hsame⟩ | ⟨hok, -⟩
      · exact hsame
      · rw [hok] at he
        cases he
    · intro outcome hok
      rcases run_write c.outPath text faults.tail s with ⟨⟨cause, he⟩, -⟩ | ⟨hw, -, -, hplace⟩
      · rw [he] at hok
        cases hok
      · obtain ⟨d, name, hnames, hfile, hothers⟩ := hplace
        rw [hw] at hok
        refine ⟨text, rfl, (Except.ok.inj hok).symm, hnames.readBytes hfile, fun l hl => ?_⟩
        refine hothers l fun he => hl ?_
        rw [he]
        exact hnames.find (by simp [file?_eq_some_iff.mp hfile])
    · rintro _ rfl
      exact ⟨comparison_eq_upToDate_iff, comparison_eq_stale_iff,
        fun h => comparison_eq_error h.1 h.2⟩

end Job

namespace Small

/-! A store with a schema of one kind, whose output goes to a directory that is not there yet. -/

def source : String := "\x7b\"NodeId\": \"u32\", \"A\": \x7b\"x\": \"u8\"\x7d\x7d"

def store : Store := ⟨[(["a.json"], .file source.toUTF8)]⟩

def config : Config := { schemaPath := "a.json", outPath := "gen/a.rs" }

/-- The last request of a run, which gives the temporary file its name, fails by itself. -/
def faults : Store.Faults := [none, none, none, none, some { error := .busy }]

/-- A run whose last request fails, one that goes through, and one that only checks. -/
theorem all_or_nothing_small :
    (((Job.run config false).run faults store).1 = .error (.unwritable config.outPath .busy) ∧
      ((Job.run config false).run faults store).2.file? = store.file?) ∧
    (((Job.run config false).run [] store).1 = .ok (.written config.outPath 1485) ∧
      ∃ text, Job.Generates config [] store text ∧
        ((Job.run config false).run [] store).2.readBytes config.outPath = .ok text.toUTF8) ∧
    ((Job.run config true).run [] store).1 = .ok (.stale config.outPath) := by
  have hfault : ((Job.run config false).run faults store).1 =
      .error (.unwritable config.outPath .busy) := by decide +kernel
  have hwrite : ((Job.run config false).run [] store).1 = .ok (.written config.outPath 1485) := by
    decide +kernel
  have hnone : store.readBytes config.outPath = .error .notFound := by decide +kernel
  obtain ⟨hfails, -⟩ := Job.run_all_or_nothing config faults store
  obtain ⟨-, hwrites, -, -, hchecks⟩ := Job.run_all_or_nothing config [] store
  obtain ⟨text, htext, -, hbytes, -⟩ := hwrites _ hwrite
  exact ⟨⟨hfault, hfails _ hfault⟩, ⟨hwrite, text, htext, hbytes⟩,
    (hchecks text htext).2.1.mpr (.inl hnone)⟩

end Small

end TreeSchema
