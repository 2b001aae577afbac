import Mathlib.Data.List.Nodup
import TreeSchema.Files.Store
import TreeSchema.Proofs.Files.Path

/-!
# What requests do to a store

A store is known by what it holds at each location. Paths that name a file are followed through
directories only, so they name the same location as long as no directory goes away; making
directories adds locations and changes none that was there.
-/

namespace TreeSchema.Store

variable {s s' : Store} {loc l d : Location} {path name : String}

/-! ### Locations -/

theorem lookup_filter_ne (items : List (Location × StoreItem)) (loc l : Location) :
    (items.filter (·.1 != loc)).lookup l = if l = loc then none else items.lookup l := by
  induction items with
  | nil => simp
  | cons a items ih =>
    obtain ⟨k, item⟩ := a
    by_cases hl : l = k
    · subst hl
      by_cases hloc : l = loc
      · subst hloc
        simpa using ih
      · simp [hloc]
    · have hne : (l == k) = false := by simpa using hl
      by_cases hk : k = loc
      · subst hk
        simp [List.lookup_cons, hne, ih, hl]
      · simp [List.lookup_cons, hne, ih, hk]

theorem item?_erase (s : Store) (hloc : loc ≠ []) (l : Location) :
    (s.erase loc).item? l = if l = loc then none else s.item? l := by
  by_cases hl : l = []
  · simp [item?, hl, Ne.symm hloc]
  · simp [item?, hl, erase, lookup_filter_ne]

theorem item?_set (s : Store) (hloc : loc ≠ []) (item : StoreItem) (l : Location) :
    (s.set loc item).item? l = if l = loc then some item else s.item? l := by
  by_cases hl : l = []
  · simp [item?, hl, Ne.symm hloc]
  · have hlast : (s.set loc item).item? l =
        (if l = loc then none else s.items.lookup l).or ([(loc, item)].lookup l) := by
      simp only [item?, hl, if_false, set, erase, List.lookup_append, lookup_filter_ne]
    rw [hlast]
    by_cases h : l = loc
    · simp [h]
    · have hne : (l == loc) = false := by simpa using h
      simp [h, hne, item?, hl, List.lookup_cons]

theorem isDirectory_iff : s.isDirectory l = true ↔ s.item? l = some .directory := by
  unfold isDirectory
  split
  · next h => simp [h]
  · next h => simpa using h

theorem isDirectory_nil (s : Store) : s.isDirectory [] = true := by simp [isDirectory, item?]

/-- The bytes of the regular file at a location. -/
def file? (s : Store) (loc : Location) : Option ByteArray :=
  match s.item? loc with
  | some (.file bytes) => some bytes
  | _ => none

theorem file?_eq_some_iff {bytes : ByteArray} :
    s.file? l = some bytes ↔ s.item? l = some (.file bytes) := by
  unfold file?
  split
  · next h => simp [h]
  · next h =>
    simp only [reduceCtorEq, false_iff]
    exact h bytes

theorem file?_congr (h : s'.item? l = s.item? l) : s'.file? l = s.file? l := by
  unfold file?
  rw [h]

/-- All directories of one store are directories of another. -/
def KeepsDirectories (s s' : Store) : Prop := ∀ l, s.isDirectory l = true → s'.isDirectory l = true

/-! ### Following paths -/

theorem walk_append (s : Store) (loc : Location) (ps qs : List String) :
    s.walk loc (ps ++ qs) = (s.walk loc ps).bind fun l => s.walk l qs := by
  induction ps generalizing loc with
  | nil => rfl
  | cons p ps ih =>
    simp only [List.cons_append, walk, ih]
    split_ifs <;> rfl

/-- A way that can be followed starts in a directory if it ends in one. -/
theorem isDirectory_of_walk {ps : List String} (h : s.walk loc ps = .ok l)
    (hl : s.isDirectory l = true) : s.isDirectory loc = true := by
  cases ps with
  | nil => cases h; exact hl
  | cons p ps =>
    rw [walk] at h
    split at h
    · cases h
    · next hd => simpa using hd

/-- The step of a way over one piece. -/
theorem walk_cons_eq_ok_iff {p : String} {ps : List String} : s.walk loc (p :: ps) = .ok l ↔
    s.isDirectory loc = true ∧
      ((p = "" ∨ p = ".") ∧ s.walk loc ps = .ok l ∨ p = ".." ∧ s.walk loc.dropLast ps = .ok l ∨
        (p ≠ "" ∧ p ≠ "." ∧ p ≠ "..") ∧ isTooLong p = false ∧
          (s.item? (loc ++ [p])).isSome = true ∧ s.walk (loc ++ [p]) ps = .ok l) := by
  rw [walk]
  by_cases hd : s.isDirectory loc = true
  · by_cases hdot : p = "" ∨ p = "."
    · rcases hdot with rfl | rfl <;> simp [hd]
    · by_cases hup : p = ".."
      · simp [hd, hup]
      · by_cases hlong : isTooLong p = true
        · simp [hd, hdot, hup, hlong]
        · by_cases hsome : (s.item? (loc ++ [p])).isSome = true
          · simp [hd, hup, hlong, hsome, not_or.mp hdot]
          · simp [hd, hdot, hup, hlong, hsome]
  · simp [hd]

/-- A way to a directory leads through directories. -/
theorem walk_of_keepsDirectories (hk : KeepsDirectories s s') {ps : List String}
    (h : s.walk loc ps = .ok l) (hl : s.isDirectory l = true) : s'.walk loc ps = .ok l := by
  induction ps generalizing loc with
  | nil => exact h
  | cons p ps ih =>
    rw [walk_cons_eq_ok_iff] at h ⊢
    obtain ⟨hd, ⟨hdot, hrest⟩ | ⟨hup, hrest⟩ | ⟨hp, hlong, -, hrest⟩⟩ := h
    · exact ⟨hk _ hd, .inl ⟨hdot, ih hrest⟩⟩
    · exact ⟨hk _ hd, .inr (.inl ⟨hup, ih hrest⟩)⟩
    · have hnext := isDirectory_iff.mp (hk _ (isDirectory_of_walk hrest hl))
      exact ⟨hk _ hd, .inr (.inr ⟨hp, hlong, by simp [hnext], ih hrest⟩)⟩

/-- Everything above a location is a directory. -/
def Under (s : Store) (loc : Location) : Prop :=
  ∀ k < loc.length, s.isDirectory (loc.take k) = true

theorem Under.dropLast (h : s.Under loc) : s.Under loc.dropLast := by
  intro k hk
  rw [List.length_dropLast] at hk
  rw [List.dropLast_eq_take, List.take_take, Nat.min_eq_left (by omega)]
  exact h k (by omega)

theorem Under.concat (h : s.Under loc) (hd : s.isDirectory loc = true) (name : String) :
    s.Under (loc ++ [name]) := by
  intro k hk
  rw [List.length_append, List.length_singleton] at hk
  rw [List.take_append_of_le_length (by omega)]
  by_cases he : k = loc.length
  · rwa [he, List.take_length]
  · exact h k (by omega)

theorem Under.isDirectory_dropLast (h : s.Under loc) : s.isDirectory loc.dropLast = true := by
  by_cases hnil : loc = []
  · rw [hnil]
    exact isDirectory_nil s
  · have hlen := List.length_pos_iff.mpr hnil
    rw [List.dropLast_eq_take]
    exact h _ (by omega)

theorem under_of_walk {ps : List String} (hloc : s.Under loc) (h : s.walk loc ps = .ok l) :
    s.Under l := by
  induction ps generalizing loc with
  | nil => cases h; exact hloc
  | cons p ps ih =>
    obtain ⟨hd, ⟨-, hrest⟩ | ⟨-, hrest⟩ | ⟨-, -, -, hrest⟩⟩ := walk_cons_eq_ok_iff.mp h
    · exact ih hloc hrest
    · exact ih hloc.dropLast hrest
    · exact ih (hloc.concat hd p) hrest

/-! ### Files named by paths -/

/-- A path whose last piece is a name in a directory, where a file may be or not. -/
structure Names (s : Store) (path : String) (d : Location) (name : String) : Prop where
  allowed : refusal? path = none
  way : ∃ above, Path.pieces path = above ++ [name] ∧ s.walk [] above = .ok d
  directory : s.isDirectory d = true
  short : isTooLong name = false
  plain : name ≠ "" ∧ name ≠ "." ∧ name ≠ ".."

theorem Names.mono (h : s.Names path d name) (hk : KeepsDirectories s s') :
    s'.Names path d name := by
  obtain ⟨above, hpieces, hwalk⟩ := h.way
  exact ⟨h.allowed, ⟨above, hpieces, walk_of_keepsDirectories hk hwalk h.directory⟩,
    hk _ h.directory, h.short, h.plain⟩

theorem Names.find (h : s.Names path d name) (hi : (s.item? (d ++ [name])).isSome = true) :
    s.find path = .ok (d ++ [name]) := by
  obtain ⟨above, hpieces, hwalk⟩ := h.way
  have hname : s.walk d [name] = .ok (d ++ [name]) :=
    walk_cons_eq_ok_iff.mpr ⟨h.directory, .inr (.inr ⟨h.plain, h.short, hi, rfl⟩)⟩
  rw [Store.find, h.allowed, hpieces]
  change s.walk [] (above ++ [name]) = _
  rw [walk_append, hwalk]
  exact hname

theorem Names.target (h : s.Names path d name) : s.target path = .ok ⟨d, name, false⟩ := by
  obtain ⟨above, hpieces, hwalk⟩ := h.way
  simp [Store.target, h.allowed, hpieces, h.plain.1, hwalk, h.directory, h.short]

/-- A target that can be given to a file is named by its path. -/
theorem names_of_target {t : Target} (h : s.target path = .ok t) (hp : t.isPlain = true)
    (hslash : t.slash = false) : s.Names path t.directory t.name := by
  unfold Store.target at h
  split at h
  · cases h
  · next hr =>
    split at h
    · cases h
      cases hslash
    · next name above hdrop =>
      split at h
      · cases h
      · next loc hwalk =>
        split_ifs at h with hdir hlong
        cases h
        -- Without a slash at the end, nothing was dropped from the pieces.
        have hpieces : Path.pieces path = above.reverse ++ [name] := by
          have hkeep : (Path.pieces path).reverse.dropWhile (· == "") =
              (Path.pieces path).reverse := by
            have hlast := List.getLast?_eq_some_getLast (Path.pieces_ne_nil path)
            rw [← List.head?_reverse] at hlast hslash
            obtain ⟨rest, hrest⟩ := List.head?_eq_some_iff.mp hlast
            rw [hlast] at hslash
            rw [hrest, List.dropWhile_cons_of_neg]
            simpa using hslash
          rw [hkeep] at hdrop
          simpa using congrArg List.reverse hdrop
        simp only [Target.isPlain, Bool.and_eq_true, bne_iff_ne, and_assoc] at hp
        exact ⟨hr, ⟨_, hpieces, hwalk⟩, by simpa using hdir, by simpa using hlong, hp⟩

theorem Names.readBytes (h : s.Names path d name) {bytes : ByteArray}
    (hf : s.file? (d ++ [name]) = some bytes) : s.readBytes path = .ok bytes := by
  have hitem := file?_eq_some_iff.mp hf
  rw [Store.readBytes, h.find (by simp [hitem])]
  simp [hitem]

/-- A path under which a file can be read names its location. -/
theorem names_of_readBytes {bytes : ByteArray} (h : s.readBytes path = .ok bytes) :
    ∃ d name, s.Names path d name ∧ s.file? (d ++ [name]) = some bytes := by
  unfold Store.readBytes at h
  split at h
  · cases h
  · next loc hfind =>
    have hitem : s.item? loc = some (.file bytes) := by
      split at h
      · cases h
      · cases h
      · next hi => cases h; exact hi
    have hfile : ¬ s.isDirectory loc = true := by simp [isDirectory_iff, hitem]
    unfold Store.find at hfind
    split at hfind
    · cases hfind
    · next hr =>
      obtain ⟨above, last, hpieces⟩ : ∃ above last, Path.pieces path = above ++ [last] :=
        ⟨_, _, (List.dropLast_append_getLast (Path.pieces_ne_nil path)).symm⟩
      rw [hpieces, walk_append] at hfind
      cases hwalk : s.walk [] above with
      | error e => simp [hwalk, Except.bind] at hfind
      | ok d =>
        -- A last piece that is no name would lead to a directory.
        rw [hwalk] at hfind
        have hunder : s.Under d := by
          apply under_of_walk _ hwalk
          intro k hk
          cases hk
        obtain ⟨hd, ⟨-, hrest⟩ | ⟨-, hrest⟩ | ⟨hplain, hshort, -, hrest⟩⟩ :=
          walk_cons_eq_ok_iff.mp hfind
        · cases hrest
          exact absurd hd hfile
        · cases hrest
          exact absurd hunder.isDirectory_dropLast hfile
        · cases hrest
          exact ⟨d, last, ⟨hr, ⟨above, hpieces, hwalk⟩, hd, hshort, hplain⟩,
            file?_eq_some_iff.mpr hitem⟩

/-! ### Making directories -/

/-- Some directories are new, and nothing else has changed. -/
def Grows (s s' : Store) : Prop :=
  ∀ l, s'.item? l = s.item? l ∨ s.item? l = none ∧ s'.item? l = some .directory

theorem Grows.refl (s : Store) : Grows s s := fun _ => .inl rfl

theorem Grows.trans {s'' : Store} (h : Grows s s') (h' : Grows s' s'') : Grows s s'' := by
  intro l
  rcases h l with he | ⟨hn, hd⟩ <;> rcases h' l with he' | ⟨hn', hd'⟩
  · exact .inl (he'.trans he)
  · exact .inr ⟨he ▸ hn', hd'⟩
  · exact .inr ⟨hn, he'.trans hd⟩
  · rw [hd] at hn'
    cases hn'

theorem Grows.keepsDirectories (h : Grows s s') : KeepsDirectories s s' := by
  intro l hl
  rw [isDirectory_iff] at hl ⊢
  rcases h l with he | ⟨hn, hd⟩
  · rw [he, hl]
  · exact hd

theorem Grows.file? (h : Grows s s') : s'.file? = s.file? := by
  funext l
  rcases h l with he | ⟨hn, hd⟩
  · exact file?_congr he
  · simp [Store.file?, hn, hd]

theorem grows_makeDirectory (h : s.makeDirectory path = .ok s') : Grows s s' := by
  unfold makeDirectory at h
  split at h
  · cases h
  · next t ht =>
    split at h
    · cases h
    · next hfree =>
      cases h
      simp only [Bool.or_eq_true, not_or, Bool.not_eq_true, Option.isSome_eq_false_iff,
        Option.isNone_iff_eq_none] at hfree
      intro l
      rw [item?_set s (by simp [Target.location])]
      by_cases hl : l = t.location
      · exact .inr ⟨by rw [hl, hfree.2], if_pos hl⟩
      · exact .inl (if_neg hl)

theorem grows_settleDirectory {r : Except OsError Store} (h : ∀ s', r = .ok s' → Grows s s') :
    Grows s (s.settleDirectory path r).2 := by
  cases r with
  | ok s' => exact h s' rfl
  | error e =>
    simp only [settleDirectory]
    split <;> exact .refl s

theorem grows_createDirs (n : ℕ) (path : String) (s : Store) : Grows s (createDirs n path s).2 := by
  induction n generalizing path s with
  | zero => exact .refl s
  | succ n ih =>
    have hmake (s : Store) : Grows s (s.settleDirectory path (s.makeDirectory path)).2 :=
      grows_settleDirectory fun s' => grows_makeDirectory
    rw [createDirs]
    split
    · exact .refl s
    · split
      · split
        · exact .refl s
        · next parent _ =>
          have hparent := ih parent s
          split
          · next e s' hc => rwa [hc] at hparent
          · next s' hc =>
            rw [hc] at hparent
            exact hparent.trans (hmake s')
      · exact hmake s

end TreeSchema.Store
