/-!
# Texts between marks

A text split at every occurrence of a character: putting the marks back between the pieces gives the
text.
-/

namespace TreeSchema.Text

/-- The pieces of a text between the marks. -/
def split (mark : Char) : List Char → List (List Char)
  | [] => [[]]
  | c :: cs =>
    if c = mark then [] :: split mark cs
    else
      match split mark cs with
      | [] => [[c]]
      | piece :: rest => (c :: piece) :: rest

theorem split_ne_nil (mark : Char) (cs : List Char) : split mark cs ≠ [] := by
  cases cs with
  | nil => simp [split]
  | cons c cs =>
    rw [split]
    split
    · simp
    · cases split mark cs <;> simp

theorem intercalate_split (mark : Char) (cs : List Char) :
    [mark].intercalate (split mark cs) = cs := by
  induction cs with
  | nil => rfl
  | cons c cs ih =>
    rw [split]
    cases hs : split mark cs with
    | nil => exact absurd hs (split_ne_nil mark cs)
    | cons piece rest =>
      rw [hs] at ih
      by_cases h : c = mark
      · simpa [h, List.intercalate] using ih
      · cases rest <;> simpa [h, List.intercalate] using ih

end TreeSchema.Text
