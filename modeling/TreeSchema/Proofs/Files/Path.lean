import Mathlib.Algebra.Ring.Nat
import TreeSchema.Path

/-!
# The pieces of a path

Pieces hold no slash, and putting slashes between such pieces gives a path with just these pieces.
The components of a path are some of its pieces in order, so a path that is put together from them
is not longer and holds no other characters.
-/

namespace TreeSchema

namespace Text

theorem split_append (mark : Char) (a b : List Char) :
    split mark (a ++ mark :: b) = split mark a ++ split mark b := by
  induction a with
  | nil => simp [split]
  | cons c a ih =>
    rw [List.cons_append, split, split, ih]
    by_cases h : c = mark
    · simp [h]
    · rw [if_neg h, if_neg h]
      cases hs : split mark a with
      | nil => exact absurd hs (split_ne_nil mark a)
      | cons piece rest => rfl

theorem split_of_notMem {mark : Char} {cs : List Char} (h : mark ∉ cs) : split mark cs = [cs] := by
  induction cs with
  | nil => rfl
  | cons c cs ih =>
    have hc : c ≠ mark := fun e => h (e ▸ List.mem_cons_self)
    rw [split, if_neg hc, ih fun hm => h (List.mem_cons_of_mem _ hm)]

theorem notMem_of_mem_split {mark : Char} {cs piece : List Char} (h : piece ∈ split mark cs) :
    mark ∉ piece := by
  induction cs generalizing piece with
  | nil =>
    rw [split, List.mem_singleton] at h
    simp [h]
  | cons c cs ih =>
    rw [split] at h
    by_cases hc : c = mark
    · rw [if_pos hc, List.mem_cons] at h
      rcases h with rfl | h
      · simp
      · exact ih h
    · rw [if_neg hc] at h
      cases hs : split mark cs with
      | nil => exact absurd hs (split_ne_nil mark cs)
      | cons first rest =>
        simp only [hs, List.mem_cons] at h ih
        rcases h with rfl | h
        · simpa [Ne.symm hc] using ih (.inl rfl)
        · exact ih (.inr h)

end Text

namespace Path

variable {path : String}

theorem pieces_ne_nil (path : String) : pieces path ≠ [] := by
  simp [pieces, Text.split_ne_nil]

theorem slash_notMem_of_mem_pieces {p : String} (h : p ∈ pieces path) : '/' ∉ p.toList := by
  obtain ⟨cs, hcs, rfl⟩ := List.mem_map.mp h
  simpa using Text.notMem_of_mem_split hcs

theorem pieces_append_slash (a b : String) : pieces (a ++ "/" ++ b) = pieces a ++ pieces b := by
  simp [pieces, Text.split_append]

theorem pieces_of_notMem (h : '/' ∉ path.toList) : pieces path = [path] := by
  simp [pieces, Text.split_of_notMem h]

theorem pieces_intercalate {ps : List String} (hne : ps ≠ []) (h : ∀ p ∈ ps, '/' ∉ p.toList) :
    pieces ("/".intercalate ps) = ps := by
  induction ps with
  | nil => exact absurd rfl hne
  | cons p ps ih =>
    have hp := h p List.mem_cons_self
    cases ps with
    | nil => rw [String.intercalate_singleton, pieces_of_notMem hp]
    | cons q qs =>
      rw [String.intercalate_cons_cons, pieces_append_slash, pieces_of_notMem hp,
        ih (by simp) fun r hr => h r (List.mem_cons_of_mem _ hr)]
      rfl

theorem intercalate_pieces (path : String) : "/".intercalate (pieces path) = path := by
  apply String.toList_injective
  rw [String.toList_intercalate, pieces, List.map_map]
  have hid : (String.toList ∘ String.ofList) = id := by
    funext cs
    simp
  rw [hid, List.map_id]
  exact Text.intercalate_split '/' path.toList

/-- The bytes of the pieces, and of the slashes between them. -/
theorem size_intercalate {ps : List String} (hne : ps ≠ []) :
    ("/".intercalate ps).utf8ByteSize + 1 = (ps.map String.utf8ByteSize).sum + ps.length := by
  induction ps with
  | nil => exact absurd rfl hne
  | cons p ps ih =>
    cases ps with
    | nil => simp
    | cons q qs =>
      have hrest := ih (by simp)
      have hslash : "/".utf8ByteSize = 1 := by decide
      rw [String.intercalate_cons_cons]
      simp only [String.utf8ByteSize_append, List.map_cons, List.sum_cons, List.length_cons,
        hslash] at hrest ⊢
      omega

theorem mem_intercalate {ps : List String} {c : Char} (h : c ∈ ("/".intercalate ps).toList) :
    c = '/' ∨ ∃ p ∈ ps, c ∈ p.toList := by
  induction ps with
  | nil => simp at h
  | cons p ps ih =>
    cases ps with
    | nil => exact .inr ⟨p, by simp, by simpa using h⟩
    | cons q qs =>
      rw [String.intercalate_cons_cons] at h
      simp only [String.toList_append, List.mem_append] at h
      rcases h with (h | h) | h
      · exact .inr ⟨p, by simp, h⟩
      · exact .inl (by simpa using h)
      · rcases ih h with hc | ⟨r, hr, hc⟩
        · exact .inl hc
        · exact .inr ⟨r, List.mem_cons_of_mem _ hr, hc⟩

theorem mem_intercalate_of_mem {ps : List String} {p : String} (hp : p ∈ ps) {c : Char}
    (hc : c ∈ p.toList) : c ∈ ("/".intercalate ps).toList := by
  induction ps with
  | nil => cases hp
  | cons q qs ih =>
    cases qs with
    | nil => simpa [List.mem_singleton.mp hp] using hc
    | cons r rs =>
      rw [String.intercalate_cons_cons]
      simp only [String.toList_append, List.mem_append]
      rcases List.mem_cons.mp hp with rfl | hp
      · exact .inl (.inl hc)
      · exact .inr (ih hp)

end Path

end TreeSchema
