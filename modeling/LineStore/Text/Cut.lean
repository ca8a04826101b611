/-!
# Cutting lines apart

The few ways in which a line of text is taken apart: at the first separator, at its end, and at an
ending that it may or may not carry.
-/

namespace LineStore.Text

/-- What stands before and after the first `sep`, if there is one. -/
def cut? (sep : Char) : List Char → Option (List Char × List Char)
  | [] => none
  | c :: rest =>
    if c = sep then some ([], rest)
    else (cut? sep rest).map fun (before, after) => (c :: before, after)

/-- `cut?`, where a text without the separator is all "before". -/
def cut (sep : Char) (s : List Char) : List Char × List Char := (cut? sep s).getD (s, [])

theorem eq_of_cut? {sep : Char} {s before after : List Char}
    (h : cut? sep s = some (before, after)) : s = before ++ sep :: after := by
  induction s generalizing before with
  | nil => simp [cut?] at h
  | cons c rest ih =>
    by_cases hc : c = sep
    · simp_all [cut?]
    · simp only [cut?, hc, if_false, Option.map_eq_some_iff, Prod.mk.injEq, Prod.exists] at h
      obtain ⟨b, a, hr, rfl, rfl⟩ := h
      simp [ih hr]

/-- The separator does not stand before the cut. -/
theorem not_mem_of_cut? {sep : Char} {s before after : List Char}
    (h : cut? sep s = some (before, after)) : sep ∉ before := by
  induction s generalizing before with
  | nil => simp [cut?] at h
  | cons c rest ih =>
    by_cases hc : c = sep
    · simp_all [cut?]
    · simp only [cut?, hc, if_false, Option.map_eq_some_iff, Prod.mk.injEq, Prod.exists] at h
      obtain ⟨b, a, hr, rfl, rfl⟩ := h
      simp [ih hr, Ne.symm hc]

theorem cut?_append {sep : Char} {before : List Char} (after : List Char) (h : sep ∉ before) :
    cut? sep (before ++ sep :: after) = some (before, after) := by
  induction before with
  | nil => simp [cut?]
  | cons c rest ih =>
    simp only [List.mem_cons, not_or] at h
    simp [cut?, Ne.symm h.1, ih h.2]

theorem cut?_eq_none_iff {sep : Char} {s : List Char} : cut? sep s = none ↔ sep ∉ s := by
  induction s with
  | nil => simp [cut?]
  | cons c rest ih =>
    by_cases hc : c = sep
    · simp [cut?, hc]
    · simp [cut?, hc, ih, Ne.symm hc]

/-- Whether a character ends a line. -/
def isLineEnd (c : Char) : Bool := c = '\r' || c = '\n'

/-- The line without the run of CR and LF at its end. -/
def dropLineEnd (s : List Char) : List Char := (s.reverse.dropWhile isLineEnd).reverse

/-- The text before the ending `e`, if it ends in `e`. -/
def stem? (e s : List Char) : Option (List Char) :=
  if e.isSuffixOf s then some (s.take (s.length - e.length)) else none

theorem stem?_eq_some_iff {e s stem : List Char} : stem? e s = some stem ↔ s = stem ++ e := by
  unfold stem?
  constructor
  · intro h
    split at h
    · rename_i hs
      obtain ⟨p, rfl⟩ := List.isSuffixOf_iff_suffix.1 hs
      simp_all
    · simp at h
  · rintro rfl
    simp

/-- The text in ASCII capitals; other characters stay as they are. -/
def capitals (s : List Char) : List Char := s.map Char.toUpper

end LineStore.Text
