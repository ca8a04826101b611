import LineStore.Proofs.Text.Ascii
import LineStore.Proofs.Text.Pieces
import LineStore.Text.Blank
import LineStore.Text.Cut

/-!
# Lines put together

A line is read by taking its end off, cutting it at its first space and taking the rest apart into
words. Each of these steps undoes the one that puts a line together, on texts that hold nothing that
the step looks for: a text that ends in no line break keeps its end (`dropLineEnd_append`), a word
without a space is what stands before the cut (`cut_joined`), and words without blanks are the words
of the line (`words_joined`).
-/

namespace LineStore.Text

variable {s t w : List Char} {ws : List (List Char)}

/-! ## Words -/

/-- A text that is a single word: there is something in it, and nothing of it is blank. -/
def IsWord (w : List Char) : Prop := w ≠ [] ∧ ∀ c ∈ w, isBlank c = false

instance (w : List Char) : Decidable (IsWord w) :=
  decidable_of_iff (w ≠ [] ∧ w.all fun c => !isBlank c) (by simp [IsWord])

theorem isWord_of_mem_words (h : w ∈ words s) : IsWord w := by
  obtain ⟨hp, hne⟩ := List.mem_filter.1 h
  exact ⟨by simpa using hne, fun c hc => not_of_mem_splitOnP hp hc⟩

/-- A number is a word. -/
theorem isWord_write (n : Nat) : IsWord (Numeral.write n) := by
  refine ⟨Nat.toDigits_ne_nil, fun c hc => ?_⟩
  have hd : '0'.toNat ≤ c.toNat ∧ c.toNat ≤ '9'.toNat :=
    Char.isDigit_iff_toNat.1 (Numeral.isDigit_of_mem_write hc)
  simp only [Char.reduceToNat] at hd
  simp [isBlank]
  omega

/-- **The words of a line are those that it was put together from.** -/
theorem words_joined (h : ∀ w ∈ ws, IsWord w) : words (ws.flatMap (' ' :: ·)).tail = ws := by
  cases ws with
  | nil => simp [words]
  | cons w rest =>
    have hcut : (w ++ rest.flatMap (' ' :: ·)).splitOnP isBlank = w :: rest :=
      splitOnP_joined (by decide) (h w List.mem_cons_self).2
        fun v hv => (h v (List.mem_cons_of_mem _ hv)).2
    rw [List.flatMap_cons, List.cons_append, List.tail_cons, words, hcut, List.filter_eq_self]
    intro v hv
    simpa using (h v hv).1

/-! ## The first space -/

theorem cut_of_not_mem (h : ' ' ∉ s) : cut ' ' s = (s, []) := by
  rw [cut, cut?_eq_none_iff.2 h, Option.getD_none]

theorem cut_append (h : ' ' ∉ s) : cut ' ' (s ++ ' ' :: t) = (s, t) := by
  rw [cut, cut?_append t h, Option.getD_some]

theorem not_mem_cut {sep : Char} (s : List Char) : sep ∉ (cut sep s).1 := by
  unfold cut
  cases hc : cut? sep s with
  | none => exact cut?_eq_none_iff.1 hc
  | some parts => exact not_mem_of_cut? hc

/-- What is put behind a text with a space before each piece stands behind the first space. -/
theorem cut_joined (h : ' ' ∉ s) (pieces : List (List Char)) :
    cut ' ' (s ++ pieces.flatMap (' ' :: ·)) = (s, (pieces.flatMap (' ' :: ·)).tail) := by
  cases pieces with
  | nil => simp [cut_of_not_mem h]
  | cons piece rest => simp [cut_append h]

/-! ## The end of a line -/

/-- The text ends in no character that would be taken for a line's end. -/
def Trimmed (s : List Char) : Prop := ∀ c, s.getLast? = some c → isLineEnd c = false

instance (s : List Char) : Decidable (Trimmed s) :=
  decidable_of_iff (s.getLast?.all fun c => !isLineEnd c) (by simp [Trimmed, Option.all_eq_true])

theorem trimmed_nil : Trimmed [] := by simp [Trimmed]

theorem trimmed_append (h : t ≠ []) : Trimmed (s ++ t) ↔ Trimmed t := by
  simp [Trimmed, h]

/-- What stands behind a separator ends as the whole does. -/
theorem Trimmed.after {sep : Char} {before after : List Char} (h : Trimmed s)
    (hc : cut? sep s = some (before, after)) : Trimmed after := by
  have hs : s = (before ++ [sep]) ++ after := by simpa using eq_of_cut? hc
  rw [hs] at h
  by_cases ha : after = []
  · rw [ha]
    exact trimmed_nil
  · exact (trimmed_append ha).1 h

theorem Trimmed.cut {sep : Char} (h : Trimmed s) : Trimmed (cut sep s).2 := by
  unfold Text.cut
  cases hc : cut? sep s with
  | none => exact trimmed_nil
  | some parts => exact h.after hc

theorem trimmed_dropLineEnd (s : List Char) : Trimmed (dropLineEnd s) := by
  intro c hc
  have hn := List.head?_dropWhile_not isLineEnd s.reverse
  rw [dropLineEnd, List.getLast?_reverse] at hc
  rw [hc] at hn
  exact hn

/-- **Any run of line breaks can be put at the end of a line, and is taken off.** -/
theorem dropLineEnd_append {ends : List Char} (h : Trimmed s)
    (he : ∀ c ∈ ends, isLineEnd c = true) : dropLineEnd (s ++ ends) = s := by
  have hends : ∀ c ∈ ends.reverse, isLineEnd c = true := by simpa using he
  have hs : s.reverse.dropWhile isLineEnd = s.reverse := by
    cases hr : s.reverse with
    | nil => rfl
    | cons c rest =>
      have hl : s.getLast? = some c := by rw [← List.head?_reverse, hr, List.head?_cons]
      rw [List.dropWhile_cons_of_neg (by simp [h c hl])]
  rw [dropLineEnd, List.reverse_append, List.dropWhile_append_of_pos hends, hs, List.reverse_reverse]

theorem IsWord.trimmed (h : IsWord w) : Trimmed w := by
  intro c hc
  have hb : isBlank c = false := h.2 c (List.mem_of_getLast? hc)
  cases hl : isLineEnd c with
  | false => rfl
  | true =>
    -- Both of the characters that end a line are blank.
    simp only [isLineEnd, Bool.or_eq_true, decide_eq_true_eq] at hl
    rcases hl with rfl | rfl <;> exact absurd hb (by decide)

end LineStore.Text
