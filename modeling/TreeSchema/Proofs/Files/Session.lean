import Mathlib.Algebra.Order.BigOperators.Group.List
import Mathlib.Algebra.Order.Group.Nat
import TreeSchema.Proofs.Files.Replacement

/-!
# Runs one after another

Once an output has been written, running again changes nothing: a run that checks finds the output
up to date, and a run that writes puts the same bytes in the same place. For that, the directory of
the output has to be found again, and a name for the temporary file.
-/

namespace TreeSchema

namespace Store

variable {s s' : Store} {d : Location} {path directory name : String} {bytes : ByteArray}

/-! ### The directory of a file -/

theorem refusal?_eq_none_iff : refusal? path = none ↔
    path ≠ "" ∧ (∀ c ∈ path.toList, c.toNat ≠ 0) ∧ path.utf8ByteSize < 4096 := by
  have hany : path.toList.any (·.toNat == 0) = true ↔ ¬ ∀ c ∈ path.toList, c.toNat ≠ 0 := by
    simp
  unfold refusal?
  by_cases hempty : path = ""
  · simp [hempty]
  · by_cases hzero : path.toList.any (·.toNat == 0) = true
    · rw [if_neg (by simpa using hempty), if_pos hzero]
      simp only [reduceCtorEq, false_iff]
      exact fun h => hany.mp hzero h.2.1
    · have hnone := not_not.mp fun h => hzero (hany.mpr h)
      rw [if_neg (by simpa using hempty), if_neg hzero]
      by_cases hlong : path.utf8ByteSize ≥ 4096
      · rw [if_pos hlong]
        simp only [reduceCtorEq, false_iff]
        intro h
        omega
      · rw [if_neg hlong]
        exact ⟨fun _ => ⟨hempty, hnone, by omega⟩, fun _ => rfl⟩

/-- Empty pieces and dots can be left out of a way. -/
theorem walk_filter {loc l : Location} {ps : List String} (h : s.walk loc ps = .ok l) :
    s.walk loc (ps.filter fun p => p != "" && p != ".") = .ok l := by
  induction ps generalizing loc with
  | nil => exact h
  | cons p ps ih =>
    obtain ⟨hd, ⟨hdot, hrest⟩ | ⟨hup, hrest⟩ | ⟨hp, hlong, hsome, hrest⟩⟩ :=
      walk_cons_eq_ok_iff.mp h
    · rw [List.filter_cons_of_neg (by rcases hdot with rfl | rfl <;> decide)]
      exact ih hrest
    · rw [List.filter_cons_of_pos (by rw [hup]; decide)]
      exact walk_cons_eq_ok_iff.mpr ⟨hd, .inr (.inl ⟨hup, ih hrest⟩)⟩
    · rw [List.filter_cons_of_pos (by simp [hp])]
      exact walk_cons_eq_ok_iff.mpr ⟨hd, .inr (.inr ⟨hp, hlong, hsome, ih hrest⟩)⟩

/-- The components before the name lead to the same directory. -/
theorem Names.components (h : s.Names path d name) : ∃ above cs,
    Path.pieces path = above ++ [name] ∧ Path.components path = cs ++ [name] ∧ cs.Sublist above ∧
      s.walk [] cs = .ok d := by
  obtain ⟨above, hpieces, hwalk⟩ := h.way
  have hmeant : [name].filter (fun p => p != "" && p != ".") = [name] := by
    simp [h.plain]
  unfold Path.components
  rw [hpieces]
  cases above with
  | nil =>
    refine ⟨[], [], rfl, ?_, .refl _, hwalk⟩
    simp only [List.nil_append]
    split
    · next rest heq =>
      cases heq
      exact absurd rfl h.plain.2.1
    · exact hmeant
  | cons first above =>
    by_cases hfirst : first = "."
    · subst hfirst
      refine ⟨_, "." :: above.filter fun p => p != "" && p != ".", rfl, ?_,
        List.filter_sublist.cons_cons _, ?_⟩
      · simp [h.plain]
      · obtain ⟨hd, ⟨-, hrest⟩ | ⟨hup, -⟩ | ⟨hp, -⟩⟩ := walk_cons_eq_ok_iff.mp hwalk
        · exact walk_cons_eq_ok_iff.mpr ⟨hd, .inl ⟨.inr rfl, walk_filter hrest⟩⟩
        · exact absurd hup (by decide)
        · exact absurd rfl hp.2.1
    · refine ⟨_, (first :: above).filter fun p => p != "" && p != ".", rfl, ?_,
        List.filter_sublist, walk_filter hwalk⟩
      split
      · next rest heq =>
        cases heq
        exact absurd rfl hfirst
      · rw [List.filter_append, hmeant]

/-! ### A directory that is there -/

theorem walk_of_find (h : s.find path = .ok d) :
    refusal? path = none ∧ s.walk [] (Path.pieces path) = .ok d := by
  unfold Store.find at h
  split at h
  · cases h
  · next hr => exact ⟨hr, h⟩

/-- What is there cannot be made. -/
theorem makeDirectory_of_find (h : s.find path = .ok d) :
    s.makeDirectory path = .error .exists := by
  obtain ⟨hr, hwalk⟩ := walk_of_find h
  unfold makeDirectory Store.target
  rw [hr]
  cases hdrop : (Path.pieces path).reverse.dropWhile (· == "") with
  | nil => simp [Target.isPlain]
  | cons name above =>
    -- The way goes on from the directory of the last piece, over that piece and empty ones.
    have hpieces : Path.pieces path =
        above.reverse ++ name :: ((Path.pieces path).reverse.takeWhile (· == "")).reverse := by
      have hsplit := (Path.pieces path).reverse.takeWhile_append_dropWhile (p := (· == ""))
      rw [hdrop] at hsplit
      simpa using congrArg List.reverse hsplit.symm
    rw [hpieces, walk_append] at hwalk
    cases habove : s.walk [] above.reverse with
    | error e => simp [habove, Except.bind] at hwalk
    | ok l =>
      rw [habove] at hwalk
      obtain ⟨hl, hlast⟩ := walk_cons_eq_ok_iff.mp hwalk
      rcases hlast with ⟨rfl | rfl, -⟩ | ⟨rfl, -⟩ | ⟨-, hlong, hsome, -⟩
      · simp +decide [habove, hl, Target.isPlain]
      · simp +decide [habove, hl, Target.isPlain]
      · simp +decide [habove, hl, Target.isPlain]
      · simp [habove, hl, hlong, Target.location, hsome]

theorem createDirs_of_find (n : ℕ) (h : s.find path = .ok d) (hd : s.isDirectory d = true) :
    createDirs (n + 1) path s = (.ok (), s) := by
  have hthere : s.isDirectoryPath path = true := by
    rw [isDirectoryPath, h]
    exact hd
  rw [createDirs, makeDirectory_of_find h]
  simp [settleDirectory, hthere]

/-! ### A free name -/

theorem tempEnding_inj {places m n : ℕ} (hm : m < 62 ^ places) (hn : n < 62 ^ places)
    (h : tempEnding places m = tempEnding places n) : m = n := by
  induction places generalizing m n with
  | zero => omega
  | succ places ih =>
    obtain ⟨hfirst, hrest⟩ := List.cons.inj h
    have hdiv := ih (Nat.div_lt_of_lt_mul (by rwa [pow_succ, mul_comm] at hm))
      (Nat.div_lt_of_lt_mul (by rwa [pow_succ, mul_comm] at hn)) hrest
    have hmod : m % 62 = n % 62 := by
      have hlen : tempAlphabet.length = 62 := by decide
      have hnodup : tempAlphabet.Nodup := by decide
      have hm' : m % 62 < tempAlphabet.length := hlen ▸ Nat.mod_lt m (by decide)
      have hn' : n % 62 < tempAlphabet.length := hlen ▸ Nat.mod_lt n (by decide)
      rw [List.getD_eq_getElem _ _ hm', List.getD_eq_getElem _ _ hn'] at hfirst
      exact (List.Nodup.getElem_inj_iff hnodup).mp hfirst
    omega

theorem tempName_inj {m n : ℕ} (hm : m < tempNameCount) (hn : n < tempNameCount)
    (h : tempName m = tempName n) : m = n := by
  apply tempEnding_inj hm hn
  have hlist := congrArg String.toList h
  rwa [toList_tempName, toList_tempName, List.append_cancel_left_eq] at hlist

/-- Items that are fewer than the names of temporary files leave one of the first names free. -/
theorem exists_free_of_length (h : s.items.length < tempNameCount) (d : Location) :
    ∃ n ≤ s.items.length, s.item? (d ++ [tempName n]) = none := by
  by_contra hall
  push Not at hall
  -- Otherwise each of these names is at a location of its own.
  have hsub : ((List.range (s.items.length + 1)).map fun n => d ++ [tempName n]) ⊆
      s.items.map Prod.fst := by
    intro l hl
    obtain ⟨n, hn, rfl⟩ := List.mem_map.mp hl
    have htaken := hall n (Nat.le_of_lt_succ (List.mem_range.mp hn))
    have hsome : (s.items.lookup (d ++ [tempName n])).isSome = true := by
      simpa [item?, Option.isSome_iff_ne_none] using htaken
    obtain ⟨a, ha, he⟩ := List.lookup_isSome_iff.mp hsome
    exact List.mem_map.mpr ⟨a, ha, (beq_iff_eq.mp he).symm⟩
  have hnodup : ((List.range (s.items.length + 1)).map fun n => d ++ [tempName n]).Nodup := by
    apply List.Nodup.map_on _ List.nodup_range
    intro m hm n hn he
    rw [List.mem_range] at hm hn
    apply tempName_inj (by omega) (by omega)
    simpa using he
  have hlen := (List.subperm_of_subset hnodup hsub).length_le
  simp at hlen

theorem tempEnding_mod (places n : ℕ) :
    tempEnding places (n % 62 ^ places) = tempEnding places n := by
  induction places generalizing n with
  | zero => rfl
  | succ places ih =>
    have hmod : n % 62 ^ (places + 1) % 62 = n % 62 :=
      Nat.mod_mod_of_dvd n (Dvd.intro_left _ (pow_succ 62 places).symm)
    have hdiv : n % 62 ^ (places + 1) / 62 = n / 62 % 62 ^ places := by
      rw [pow_succ, mul_comm, Nat.mod_mul_right_div_self]
    rw [tempEnding, tempEnding, hmod, hdiv, ih]

/-- A name for a temporary file is free in a directory. -/
def HasFreeName (s : Store) (d : Location) : Prop := ∃ n, s.item? (d ++ [tempName n]) = none

theorem exists_freeName? (h : s.HasFreeName d) : ∃ n, s.freeName? d = some (tempName n) := by
  obtain ⟨n, hn, hfree⟩ : ∃ n ≤ s.items.length, s.item? (d ++ [tempName n]) = none := by
    by_cases hlen : s.items.length < tempNameCount
    · exact exists_free_of_length hlen d
    · -- All names are tried.
      obtain ⟨n, hfree⟩ := h
      have hlt : n % tempNameCount < tempNameCount := Nat.mod_lt n (by decide)
      refine ⟨n % tempNameCount, by omega, ?_⟩
      rwa [tempName, show tempNameCount = 62 ^ 6 from rfl, tempEnding_mod]
  have hfound : (s.freeName? d).isSome = true := by
    rw [freeName?, List.find?_isSome]
    exact ⟨tempName n, List.mem_map_of_mem (List.mem_range.mpr (by omega)), by simp [hfree]⟩
  obtain ⟨name, hname⟩ := Option.isSome_iff_exists.mp hfound
  obtain ⟨m, -, rfl⟩ := List.mem_map.mp (List.mem_of_find?_eq_some hname)
  exact ⟨m, hname⟩

/-- Whether the path of a temporary file can be used does not depend on its number. -/
theorem refusal?_temp {m : ℕ} (h : refusal? (directory ++ "/" ++ tempName m) = none) (n : ℕ) :
    refusal? (directory ++ "/" ++ tempName n) = none := by
  obtain ⟨-, hchars, hsize⟩ := refusal?_eq_none_iff.mp h
  simp only [String.utf8ByteSize_append, utf8ByteSize_tempName] at hsize
  refine refusal?_eq_none_iff.mpr ⟨by simp, fun c hc => ?_, ?_⟩
  · simp only [String.toList_append, List.mem_append] at hc hchars
    rcases hc with hc | hc
    · exact hchars c (.inl hc)
    · rw [toList_tempName, List.mem_append] at hc
      rcases hc with hc | hc
      · have hall : (".tmp".toList.all fun c => c.toNat != 0) = true := by decide
        simpa using List.all_eq_true.mp hall c hc
      · exact (tempAlphabet_plain c (mem_tempEnding hc)).2.1
  · simpa only [String.utf8ByteSize_append, utf8ByteSize_tempName] using hsize

theorem exists_createTemp (hfind : s.find directory = .ok d) (hd : s.isDirectory d = true)
    (hfree : s.HasFreeName d)
    (hfits : ∀ n, refusal? (directory ++ "/" ++ tempName n) = none) :
    ∃ created, s.createTemp directory = .ok created := by
  obtain ⟨n, hn⟩ := exists_freeName? hfree
  simp [createTemp, hfind, hd, hn, hfits n]

theorem HasTemp.exists_rename {s₀ s₁ : Store} {temp : String} (h : HasTemp s₀ s₁ temp bytes)
    (hnames : s₀.Names path d name) (hd : s₀.isDirectory (d ++ [name]) = false) :
    ∃ s₂, s₁.rename temp path = .ok s₂ := by
  have hsame := h.isDirectory
  obtain ⟨loc, -, hfind, -, hrep⟩ := h.find
  have hnames₁ : s₁.Names path d name := hnames.mono fun l hl => by rwa [hsame l]
  have hitem := hrep loc
  rw [if_pos rfl] at hitem
  simp [Store.rename, hfind, hnames₁.target, Target.isPlain, Target.location, hnames.plain,
    hsame, hd, hitem]

end Store

namespace Job

open Store

variable {s : Store} {d : Location} {path name : String}

theorem directoryOf_of_components {cs : List String} (h : Path.components path = cs ++ [name]) :
    directoryOf path =
      if Path.isAbsolute path then "/" ++ "/".intercalate cs
      else if "/".intercalate cs = "" then "." else "/".intercalate cs := by
  have hparent : Path.parent? path =
      some (if Path.isAbsolute path then "/" ++ "/".intercalate cs else "/".intercalate cs) := by
    have hlast : (cs ++ [name]).dropLast = cs := List.dropLast_concat
    unfold Path.parent?
    rw [h]
    cases cs with
    | nil => rfl
    | cons c cs =>
      simp only [List.cons_append]
      rw [← List.cons_append, hlast]
  rw [directoryOf, hparent]
  by_cases ha : Path.isAbsolute path = true
  · have hne : ("/" ++ "/".intercalate cs).isEmpty = false := by simp
    simp only [ha, if_true, hne]
    rfl
  · simp [ha]

/-- The path of a directory is not longer than the path of a file in it. -/
theorem refusal?_above {above cs : List String} (hpath : refusal? path = none)
    (hpieces : Path.pieces path = above ++ [name]) (hcs : cs.Sublist above) (hne : cs ≠ []) :
    refusal? ("/" ++ "/".intercalate cs) = none ∧
      ("/".intercalate cs ≠ "" → refusal? ("/".intercalate cs) = none) := by
  obtain ⟨-, hchars, hsize⟩ := refusal?_eq_none_iff.mp hpath
  have hslash : "/".utf8ByteSize = 1 := by decide
  have hshort : ("/".intercalate cs).utf8ByteSize + 1 < 4096 := by
    have hsmall := Path.size_intercalate hne
    have hlarge := Path.size_intercalate (Path.pieces_ne_nil path)
    rw [Path.intercalate_pieces, hpieces] at hlarge
    have hsum := (hcs.map String.utf8ByteSize).sum_le_sum fun n _ => Nat.zero_le n
    have hlen := hcs.length_le
    simp only [List.map_append, List.sum_append, List.length_append, List.length_singleton,
      List.map_cons, List.map_nil, List.sum_cons, List.sum_nil] at hlarge
    omega
  have hplain : ∀ c ∈ ("/".intercalate cs).toList, c.toNat ≠ 0 := by
    intro c hc
    rcases Path.mem_intercalate hc with rfl | ⟨p, hp, hcp⟩
    · decide
    · apply hchars
      rw [← Path.intercalate_pieces path, hpieces]
      exact Path.mem_intercalate_of_mem (List.mem_append_left _ (hcs.subset hp)) hcp
  constructor
  · refine refusal?_eq_none_iff.mpr ⟨by simp, ?_, ?_⟩
    · intro c hc
      rw [String.toList_append, List.mem_append] at hc
      rcases hc with hc | hc
      · have hc : c = '/' := by simpa using hc
        rw [hc]
        decide
      · exact hplain c hc
    · rw [String.utf8ByteSize_append, hslash]
      omega
  · intro hbody
    exact refusal?_eq_none_iff.mpr ⟨hbody, hplain, by omega⟩

theorem find_of_walk (hr : refusal? path = none) (hw : s.walk [] (Path.pieces path) = .ok d) :
    s.find path = .ok d := by
  rw [Store.find, hr]
  exact hw

/-- A file is in the directory of its path. -/
theorem find_directoryOf (h : s.Names path d name) : s.find (directoryOf path) = .ok d := by
  obtain ⟨above, cs, hpieces, hcomponents, hsub, hwalk⟩ := h.components
  rw [directoryOf_of_components hcomponents]
  by_cases hnil : cs = []
  · subst hnil
    cases hwalk
    by_cases ha : Path.isAbsolute path = true
    · rw [if_pos ha]
      exact find_of_walk (by decide) (by simp [Path.pieces, Text.split, walk, isDirectory_nil])
    · rw [if_neg ha, if_pos (by simp)]
      exact find_of_walk (by decide) (by simp [Path.pieces, Text.split, walk, isDirectory_nil])
  · have hsame : Path.pieces ("/".intercalate cs) = cs := by
      apply Path.pieces_intercalate hnil
      intro p hp
      have hmem : p ∈ Path.pieces path := by
        rw [hpieces]
        exact List.mem_append_left _ (hsub.subset hp)
      exact Path.slash_notMem_of_mem_pieces hmem
    obtain ⟨habs, hrel⟩ := refusal?_above h.allowed hpieces hsub hnil
    by_cases ha : Path.isAbsolute path = true
    · rw [if_pos ha]
      apply find_of_walk habs
      have hslash : Path.pieces ("/" ++ "/".intercalate cs) = "" :: cs := by
        have hjoin := Path.pieces_append_slash "" ("/".intercalate cs)
        rwa [hsame, String.empty_append] at hjoin
      rw [hslash]
      exact walk_cons_eq_ok_iff.mpr ⟨isDirectory_nil s, .inl ⟨.inl rfl, hwalk⟩⟩
    · rw [if_neg ha]
      by_cases hbody : "/".intercalate cs = ""
      · -- The only way without characters is a single empty piece.
        have hcs : cs = [""] := by
          rw [hbody] at hsame
          exact hsame.symm
        rw [hcs] at hwalk
        rw [if_pos hbody]
        apply find_of_walk (by decide)
        simpa [Path.pieces, Text.split, walk, isDirectory_nil] using hwalk
      · rw [if_neg hbody]
        exact find_of_walk (hrel hbody) (by rwa [hsame])

/-! ### Writing again -/

theorem prepared_of_names (h : s.Names path d name) : prepared path s = (.ok (), s) :=
  createDirs_of_find _ (find_directoryOf h) h.directory

/-- A file that is there can be replaced, if a temporary file can be made beside it. -/
theorem writeAtomic_of_names (h : s.Names path d name) (hfile : s.isDirectory (d ++ [name]) = false)
    (hfree : s.HasFreeName d)
    (hfits : ∀ n, refusal? (directoryOf path ++ "/" ++ tempName n) = none) (text : String) :
    ((writeAtomic path text).run [] s).1 = .ok () := by
  obtain ⟨⟨temp, s₁⟩, hcreated⟩ :=
    exists_createTemp (find_directoryOf h) h.directory hfree hfits
  obtain ⟨s₂, hwrite, h₂⟩ := (hasTemp_of_createTemp hcreated).writeBytes text.toUTF8
  obtain ⟨s₃, hrename⟩ := h₂.exists_rename h hfile
  have hprepared : Store.createDirs ((Path.components (directoryOf path)).length + 1)
      (directoryOf path) s = (.ok (), s) := prepared_of_names h
  simp only [writeAtomic, FileProgram.run, hprepared]
  simp only [answer, reached, List.head?_nil, Option.join_none, List.tail_nil, hcreated, Except.map,
    FileProgram.run, after, hwrite, hrename]

/-- Replacing a file by the same bytes changes nothing. -/
theorem item?_writeAtomic_same {text : String} (hread : s.readBytes path = .ok text.toUTF8)
    (hok : ((writeAtomic path text).run [] s).1 = .ok ()) :
    ((writeAtomic path text).run [] s).2.item? = s.item? := by
  obtain ⟨d, name, hnames, hfile⟩ := names_of_readBytes hread
  have hrun := run_writeAtomic path text [] s
  rw [prepared_of_names hnames] at hrun
  rcases hrun with ⟨⟨cause, he⟩, -⟩ | ⟨-, -, d', name', hnames', -, hrep⟩
  · rw [hok] at he
    cases he
  · obtain ⟨rfl, rfl⟩ : d' = d ∧ name' = name := by
      have heq := hnames'.target.symm.trans hnames.target
      simpa using heq
    funext l
    rw [hrep l]
    by_cases hl : l = d' ++ [name']
    · rw [if_pos hl, hl, file?_eq_some_iff.mp hfile]
    · rw [if_neg hl]

theorem keepsDirectories_of_same {s' : Store} (h : s'.item? = s.item?) : KeepsDirectories s s' := by
  intro l hl
  rw [isDirectory_iff] at hl ⊢
  rw [h, hl]

/-- Paths lead to the same bytes in stores that hold the same. -/
theorem readBytes_congr {s' : Store} {bytes : ByteArray} (h : s'.item? = s.item?)
    (hread : s.readBytes path = .ok bytes) : s'.readBytes path = .ok bytes := by
  obtain ⟨d, name, hnames, hfile⟩ := names_of_readBytes hread
  apply (hnames.mono (keepsDirectories_of_same h)).readBytes
  rw [← hfile]
  exact file?_congr (congrFun h _)

/-! ### Settled stores -/

/-- A temporary file can be made in the directory of a path: one of the names is left. -/
def Room (s : Store) (path : String) : Prop :=
  ∃ d, s.find (directoryOf path) = .ok d ∧ s.HasFreeName d

/-- The output holds the text that is generated from the schema, and a temporary file can be made
beside it. -/
structure Settled (c : Config) (source text : String) (s : Store) : Prop where
  schema : s.readBytes c.schemaPath = .ok source.toUTF8
  generated : Job.generated c (.ok source) = .ok text
  output : s.readBytes c.outPath = .ok text.toUTF8
  fits : ∀ n, refusal? (directoryOf c.outPath ++ "/" ++ tempName n) = none
  room : Room s c.outPath

theorem readText_eq_ok_iff {text : String} :
    s.readText path = .ok text ↔ s.readBytes path = .ok text.toUTF8 := by
  unfold Store.readText
  cases s.readBytes path with
  | error e => simp
  | ok bytes =>
    have hiff : String.fromUTF8? bytes = some text ↔ bytes = text.toUTF8 := fromUTF8?_eq_some_iff
    simp only [Except.ok.injEq, ← hiff]
    cases String.fromUTF8? bytes <;> simp

variable {c : Config} {source text : String}

theorem Settled.run_eq (h : Settled c source text s) (checkOnly : Bool) :
    (run c checkOnly).run [] s =
      (if checkOnly then compare c.outPath text else write c.outPath text).run [] s := by
  have hread : answer [] (s.readText c.schemaPath) = .ok source := readText_eq_ok_iff.mpr h.schema
  rw [Job.run_eq, hread, h.generated]
  rfl

theorem Settled.check (h : Settled c source text s) :
    (run c true).run [] s = (.ok (.upToDate c.outPath), s) := by
  rw [h.run_eq, if_pos rfl, run_compare]
  exact Prod.ext (comparison_eq_upToDate_iff.mpr h.output) rfl

/-- The names that are left are in the directory of the output. -/
theorem Settled.hasFreeName (h : Settled c source text s) (hnames : s.Names c.outPath d name) :
    s.HasFreeName d := by
  obtain ⟨d', hfind, hfree⟩ := h.room
  cases (find_directoryOf hnames).symm.trans hfind
  exact hfree

theorem Settled.write (h : Settled c source text s) :
    ((run c false).run [] s).1 = .ok (.written c.outPath text.utf8ByteSize) ∧
      ((run c false).run [] s).2.item? = s.item? := by
  obtain ⟨d, name, hnames, hfile⟩ := names_of_readBytes h.output
  have hplain : s.isDirectory (d ++ [name]) = false := by
    simp [Store.isDirectory, file?_eq_some_iff.mp hfile]
  have hok := writeAtomic_of_names hnames hplain (h.hasFreeName hnames) h.fits text
  rw [h.run_eq, if_neg (by decide), Job.write, FileProgram.run_map]
  exact ⟨by rw [hok]; rfl, item?_writeAtomic_same h.output hok⟩

/-- A store that holds the same is settled as well. -/
theorem Settled.congr {s' : Store} (h : Settled c source text s) (hsame : s'.item? = s.item?) :
    Settled c source text s' := by
  refine ⟨readBytes_congr hsame h.schema, h.generated, readBytes_congr hsame h.output, h.fits, ?_⟩
  obtain ⟨d, name, hnames, -⟩ := names_of_readBytes h.output
  obtain ⟨n, hfree⟩ := h.hasFreeName hnames
  refine ⟨d, find_directoryOf (hnames.mono (keepsDirectories_of_same hsame)), n, ?_⟩
  rw [hsame, hfree]

/-- The name of the temporary file is free again, unless it is that of the output. -/
theorem room_of_write {path text : String} {faults : Faults} {outcome : Outcome} {s₁ : Store}
    (h : (Job.write path text).run faults s = (.ok outcome, s₁))
    (hname : ∀ n, (Path.components path).getLast? ≠ some (tempName n)) : Room s₁ path := by
  rw [Job.write, FileProgram.run_map] at h
  obtain ⟨hok, rfl⟩ := Prod.mk.inj h
  rcases run_writeAtomic path text faults s with
    ⟨⟨cause, hr⟩, -⟩ | ⟨-, ⟨_, hcreated⟩, d, name, hnames, hdir, hrep⟩
  · rw [hr] at hok
    cases hok
  · obtain ⟨d', n, hfind, -, hfree, -, -⟩ := createTemp_cases hcreated
    cases (find_directoryOf hnames).symm.trans hfind
    have hkeep : KeepsDirectories (prepared path s).2 ((writeAtomic path text).run faults s).2 := by
      intro l hl
      rwa [hrep.isDirectory hdir]
    have hother : d ++ [tempName n] ≠ d ++ [name] := by
      intro he
      obtain ⟨-, cs, -, hcs, -, -⟩ := hnames.components
      apply hname n
      rw [hcs, List.getLast?_concat]
      simpa using he.symm
    refine ⟨d, find_directoryOf (hnames.mono hkeep), n, ?_⟩
    rw [hrep, if_neg hother, hfree]

/-- A run that has written leaves a settled store, and the schema as it was, if the output is
another file than the schema. -/
theorem settled_of_written {faults : Faults} {s₁ : Store} {outcome : Outcome}
    (h : (run c false).run faults s = (.ok outcome, s₁))
    (hne : s₁.find c.schemaPath ≠ s₁.find c.outPath)
    (hroom : (∃ n, (Path.components c.outPath).getLast? = some (tempName n)) → Room s₁ c.outPath) :
    ∃ source text, Settled c source text s₁ ∧ outcome = .written c.outPath text.utf8ByteSize ∧
      s.readBytes c.schemaPath = .ok source.toUTF8 := by
  rw [Job.run_eq] at h
  cases hread : answer faults (s.readText c.schemaPath) with
  | error cause => simp [hread, generated] at h
  | ok source =>
    have hschema := readText_eq_ok_iff.mp (answer_eq_ok hread).1
    obtain ⟨d, name, hnames, hfile⟩ := names_of_readBytes hschema
    cases hgen : generated c (.ok source) with
    | error e => simp [hread, hgen] at h
    | ok text =>
      simp only [hread, hgen, Bool.false_eq_true, if_false] at h
      have hfree : Room s₁ c.outPath := by
        by_cases hname : ∃ n, (Path.components c.outPath).getLast? = some (tempName n)
        · exact hroom hname
        · exact room_of_write h (not_exists.mp hname)
      have hrun := run_write c.outPath text faults.tail s
      rw [h] at hrun
      rcases hrun with
        ⟨⟨cause, he⟩, -⟩ | ⟨hok, hkeep, ⟨_, hcreated⟩, d', name', hout, htext, hothers⟩
      · cases he
      · -- Were the schema at the place of the output, the paths would lead to the same file.
        have hschema₁ : s₁.Names c.schemaPath d name := hnames.mono hkeep
        have hother : d ++ [name] ≠ d' ++ [name'] := by
          intro he
          apply hne
          have hitem := file?_eq_some_iff.mp htext
          rw [hout.find (by simp [hitem]), ← he]
          exact hschema₁.find (by simp [he, hitem])
        obtain ⟨-, n, -, -, -, hfits, -⟩ := createTemp_cases hcreated
        refine ⟨source, text, ⟨?_, hgen, hout.readBytes htext, refusal?_temp hfits, hfree⟩,
          Except.ok.inj hok, hschema⟩
        exact hschema₁.readBytes ((hothers _ hother).trans hfile)

/-! ### Sessions -/

/-- Runs of one job, one after another, with what each of them answers. In between, others may
change the store as long as they leave the schema and the output as they are, and a name for a
temporary file. -/
inductive Session (c : Config) : Store → List (Bool × Except Error Outcome) → Store → Prop
  | done (s : Store) : Session c s [] s
  | run {s s' : Store} {log : List (Bool × Except Error Outcome)} (checkOnly : Bool)
      (rest : Session c ((Job.run c checkOnly).run [] s).2 log s') :
      Session c s ((checkOnly, ((Job.run c checkOnly).run [] s).1) :: log) s'
  | others {s s₁ s' : Store} {log : List (Bool × Except Error Outcome)}
      (schema : s₁.readBytes c.schemaPath = s.readBytes c.schemaPath)
      (output : s₁.readBytes c.outPath = s.readBytes c.outPath) (room : Room s₁ c.outPath)
      (rest : Session c s₁ log s') : Session c s log s'

/-- The answer of a run in a settled store. -/
def settledAnswer (c : Config) (text : String) (checkOnly : Bool) : Except Error Outcome :=
  .ok (if checkOnly then .upToDate c.outPath else .written c.outPath text.utf8ByteSize)

theorem Settled.run (h : Settled c source text s) (checkOnly : Bool) :
    ((Job.run c checkOnly).run [] s).1 = settledAnswer c text checkOnly ∧
      Settled c source text ((Job.run c checkOnly).run [] s).2 := by
  cases checkOnly with
  | true =>
    rw [h.check]
    exact ⟨rfl, h⟩
  | false =>
    obtain ⟨hanswer, hsame⟩ := h.write
    exact ⟨hanswer, h.congr hsame⟩

theorem Settled.session {s' : Store} {log : List (Bool × Except Error Outcome)}
    (h : Settled c source text s) (hs : Session c s log s') :
    (∀ entry ∈ log, entry.2 = settledAnswer c text entry.1) ∧ Settled c source text s' := by
  induction hs with
  | done s => exact ⟨by simp, h⟩
  | run checkOnly rest ih =>
    obtain ⟨hanswer, hnext⟩ := h.run checkOnly
    obtain ⟨hlog, hend⟩ := ih hnext
    exact ⟨List.forall_mem_cons.mpr ⟨hanswer, hlog⟩, hend⟩
  | others schema output room rest ih =>
    exact ih ⟨schema.trans h.schema, h.generated, output.trans h.output, h.fits, room⟩

/-- After a run that has written, every later run with the same configuration finds the output up to
date or writes the same bytes, and the schema and the output never change again. The paths are
compared after the first run, since it may make the directory through which one of them leads. That
a temporary file can be made again has to be known only of an output with the name of one. -/
theorem runs_settle {faults : Faults} {s₁ s₂ : Store} {outcome : Outcome}
    {log : List (Bool × Except Error Outcome)}
    (hwritten : (Job.run c false).run faults s = (.ok outcome, s₁))
    (hne : s₁.find c.schemaPath ≠ s₁.find c.outPath)
    (hroom : (∃ n, (Path.components c.outPath).getLast? = some (tempName n)) → Room s₁ c.outPath)
    (hs : Session c s₁ log s₂) :
    (∃ bytes, outcome = .written c.outPath bytes) ∧
      (∀ entry ∈ log, entry.2 = .ok (if entry.1 then .upToDate c.outPath else outcome)) ∧
      s₂.readBytes c.outPath = s₁.readBytes c.outPath ∧
      s₂.readBytes c.schemaPath = s.readBytes c.schemaPath := by
  obtain ⟨source, text, hsettled, rfl, hschema⟩ := settled_of_written hwritten hne hroom
  obtain ⟨hlog, hend⟩ := hsettled.session hs
  exact ⟨⟨_, rfl⟩, hlog, hend.output.trans hsettled.output.symm, hend.schema.trans hschema.symm⟩

end Job

namespace Small

/-- The store after the first run. -/
def written : Store := ((Job.run config false).run [] store).2

theorem run_store : (Job.run config false).run [] store =
    (.ok (.written config.outPath 1485), written) := by
  have houtcome : ((Job.run config false).run [] store).1 =
      .ok (.written config.outPath 1485) := by decide +kernel
  rw [← houtcome, written]

theorem runs_settle_small :
    ((Job.run config false).run [] written).1 = .ok (.written config.outPath 1485) ∧
      ((Job.run config true).run [] ((Job.run config false).run [] written).2).1 =
        .ok (.upToDate config.outPath) := by
  have hne : written.find config.schemaPath ≠ written.find config.outPath := by decide +kernel
  have hname : ¬ ∃ n, (Path.components config.outPath).getLast? = some (Store.tempName n) := by
    rintro ⟨n, hn⟩
    have hlast : (Path.components config.outPath).getLast? = some "a.rs" := by decide +kernel
    have hsize := Store.utf8ByteSize_tempName n
    rw [← Option.some.inj (hlast.symm.trans hn)] at hsize
    exact absurd hsize (by decide)
  have hanswers : ∀ first second s, Job.Session config written [(false, first), (true, second)] s →
      first = .ok (.written config.outPath 1485) ∧ second = .ok (.upToDate config.outPath) := by
    intro first second s hs
    obtain ⟨-, hlog, -, -⟩ := Job.runs_settle run_store hne (fun h => absurd h hname) hs
    simpa using hlog
  exact hanswers _ _ _ (.run false (.run true (.done _)))

end Small

end TreeSchema
