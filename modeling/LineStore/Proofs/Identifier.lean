import LineStore.Store.Identifier

/-!
# Names put together with a dot

Documents and settings build file names from accepted names and dots. The rule on dots is made for
that: a name with a dot inside is free of hazards exactly if both of its parts are, and neither is
empty (`hasDotHazard_join`). So parts may be joined and names may be cut, at any dot, without
another check.
-/

namespace LineStore.Identifier

theorem hasTwoDots_cons_of_ne {c : Char} {s : List Char} (h : c ≠ '.') :
    hasTwoDots (c :: s) = hasTwoDots s := by
  rw [hasTwoDots.eq_def]
  split
  · rename_i heq
    cases heq
    exact absurd rfl h
  · rename_i heq
    cases heq
    rfl
  · rename_i heq
    cases heq

theorem hasTwoDots_dot_cons (s : List Char) :
    hasTwoDots ('.' :: s) = (s.head? == some '.' || hasTwoDots s) := by
  cases s with
  | nil => rfl
  | cons c rest =>
    by_cases hc : c = '.'
    · subst hc
      simp [hasTwoDots]
    · rw [hasTwoDots.eq_def]
      split
      · rename_i heq
        cases heq
        exact absurd rfl hc
      · rename_i heq
        cases heq
        simp [hc]
      · rename_i heq
        cases heq

/-- Two dots stand in one of the parts, or one at either side of the seam. -/
theorem hasTwoDots_append (s t : List Char) :
    hasTwoDots (s ++ t) =
      (hasTwoDots s || hasTwoDots t || (s.getLast? == some '.' && t.head? == some '.')) := by
  induction s with
  | nil => simp [hasTwoDots]
  | cons c rest ih =>
    rw [List.cons_append]
    by_cases hc : c = '.'
    · subst hc
      rw [hasTwoDots_dot_cons, hasTwoDots_dot_cons, ih]
      cases rest with
      | nil => cases t <;> simp [hasTwoDots, Bool.or_comm]
      | cons d more => simp [List.getLast?_cons_cons, Bool.or_assoc]
    · rw [hasTwoDots_cons_of_ne hc, hasTwoDots_cons_of_ne hc, ih]
      cases rest with
      | nil => simp [hasTwoDots, hc]
      | cons d more => rw [List.getLast?_cons_cons]

theorem hasTwoDots_iff {s : List Char} : hasTwoDots s = true ↔ ['.', '.'] <:+: s := by
  induction s with
  | nil => simp [hasTwoDots]
  | cons c rest ih =>
    rw [List.infix_cons_iff, ← ih]
    by_cases hc : c = '.'
    · subst hc
      rw [hasTwoDots_dot_cons, Bool.or_eq_true, beq_iff_eq]
      cases rest with
      | nil => simp
      | cons d more => simp [@eq_comm _ '.']
    · rw [hasTwoDots_cons_of_ne hc]
      simp [Ne.symm hc]

theorem hasDotHazard_eq_false_iff {s : List Char} :
    hasDotHazard s = false ↔
      s.head? ≠ some '.' ∧ s.getLast? ≠ some '.' ∧ hasTwoDots s = false := by
  simp [hasDotHazard, and_assoc]

/-- **A name with a dot inside is as free of hazards as its two parts.** -/
theorem hasDotHazard_join {s t : List Char} :
    hasDotHazard (s ++ '.' :: t) = false ↔
      (s ≠ [] ∧ hasDotHazard s = false) ∧ (t ≠ [] ∧ hasDotHazard t = false) := by
  rw [hasDotHazard_eq_false_iff, hasDotHazard_eq_false_iff, hasDotHazard_eq_false_iff,
    hasTwoDots_append, hasTwoDots_dot_cons]
  cases s with
  | nil => simp
  | cons c s =>
    cases t with
    | nil =>
      have hl : (c :: s ++ ['.']).getLast? = some '.' := List.getLast?_concat
      rw [hl]
      simp
    | cons d t =>
      have hl : (c :: s ++ '.' :: d :: t).getLast? = (d :: t).getLast? := by
        rw [List.getLast?_append, List.getLast?_cons_cons, List.getLast?_cons]
        rfl
      rw [hl, List.cons_append, List.head?_cons, List.head?_cons]
      simp only [Bool.or_eq_false_iff, ne_eq, List.cons_ne_nil, not_false_eq_true, true_and,
        List.head?_cons, BEq.rfl, Bool.and_true, beq_eq_false_iff_ne]
      grind

/-! ## The two alphabets -/

theorem isDocumentName_iff {name : String} :
    isDocumentName name = true ↔
      name.toList ≠ [] ∧ name.toList.length ≤ lengthLimit ∧
        hasDotHazard name.toList = false ∧ ∀ c ∈ name.toList, c ∉ forbidden := by
  simp [isDocumentName, and_assoc]

theorem isKey_iff {key : String} :
    isKey key = true ↔
      key.toList ≠ [] ∧ hasDotHazard key.toList = false ∧ ∀ c ∈ key.toList, isKeyChar c = true := by
  simp [isKey, and_assoc]

/-- **Keys joined by a dot are a key, and nothing else is.** -/
theorem isKey_join {s t : String} :
    isKey (s ++ "." ++ t) = true ↔ isKey s = true ∧ isKey t = true := by
  have hj : (s ++ "." ++ t).toList = s.toList ++ '.' :: t.toList := by simp
  rw [isKey_iff, isKey_iff, isKey_iff, hj, hasDotHazard_join]
  have hdot : isKeyChar '.' = true := by decide
  simp only [List.mem_append, List.mem_cons]
  constructor
  · rintro ⟨_, ⟨hs, ht⟩, hc⟩
    exact ⟨⟨hs.1, hs.2, fun c h => hc c (.inl h)⟩, ht.1, ht.2, fun c h => hc c (.inr (.inr h))⟩
  · rintro ⟨⟨hs, hs', hsc⟩, ht, ht', htc⟩
    refine ⟨by simp, ⟨⟨hs, hs'⟩, ht, ht'⟩, ?_⟩
    rintro c (h | rfl | h)
    · exact hsc c h
    · exact hdot
    · exact htc c h

end LineStore.Identifier
