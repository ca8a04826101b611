import LineStore.Text.Utf8

/-!
# Lines of bytes

Both ends of a connection read lines, and neither knows where one ends before its last byte is in.
A line goes up to its first line end and includes it.
-/

namespace LineStore.Text

/-- The byte that ends a line. -/
def lineEnd : UInt8 := 0x0A

/-- The first line with its end, and what follows it; nothing if no line ends here. -/
def splitLine? : Bytes → Option (Bytes × Bytes)
  | [] => none
  | b :: rest =>
    if b = lineEnd then some ([b], rest)
    else (splitLine? rest).map fun (line, after) => (b :: line, after)

/-- The first line is what stands before the first line end, with that. -/
theorem splitLine?_append {front : Bytes} (after : Bytes) (h : lineEnd ∉ front) :
    splitLine? (front ++ lineEnd :: after) = some (front ++ [lineEnd], after) := by
  induction front with
  | nil => simp [splitLine?]
  | cons b rest ih =>
    simp only [List.mem_cons, not_or] at h
    simp [splitLine?, Ne.symm h.1, ih h.2]

/-- A split takes a line apart and loses nothing. -/
theorem eq_of_splitLine? {input line rest : Bytes} (h : splitLine? input = some (line, rest)) :
    ∃ front, lineEnd ∉ front ∧ line = front ++ [lineEnd] ∧ input = line ++ rest := by
  induction input generalizing line with
  | nil => simp [splitLine?] at h
  | cons b more ih =>
    by_cases hb : b = lineEnd
    · simp only [splitLine?, hb, if_true, Option.some.injEq, Prod.mk.injEq] at h
      obtain ⟨rfl, rfl⟩ := h
      exact ⟨[], by simp, rfl, by simp [hb]⟩
    · simp only [splitLine?, hb, if_false, Option.map_eq_some_iff, Prod.mk.injEq, Prod.exists] at h
      obtain ⟨l, r, hs, rfl, rfl⟩ := h
      obtain ⟨front, hf, rfl, rfl⟩ := ih hs
      exact ⟨b :: front, by simp [hf, Ne.symm hb], rfl, rfl⟩

theorem splitLine?_eq_none_iff {input : Bytes} : splitLine? input = none ↔ lineEnd ∉ input := by
  induction input with
  | nil => simp [splitLine?]
  | cons b rest ih =>
    by_cases hb : b = lineEnd
    · simp [splitLine?, hb]
    · simp [splitLine?, hb, ih, Ne.symm hb]

/-- What is left after a line is shorter than what was there. -/
theorem length_of_splitLine? {input line rest : Bytes} (h : splitLine? input = some (line, rest)) :
    rest.length < input.length := by
  obtain ⟨front, -, rfl, rfl⟩ := eq_of_splitLine? h
  simp only [List.length_append, List.length_singleton]
  omega

end LineStore.Text
