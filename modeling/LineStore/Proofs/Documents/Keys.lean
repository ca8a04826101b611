import LineStore.Proofs.Identifier
import LineStore.Store.Documents

/-!
# The names of one document

A document has one key, the text of its file's name, and at most two names: the key itself, and the
key without its ending. So an accepted name is its own key or the stem of it (`key_cases`), and
either way the key is as free of hazards as the name (`hasDotHazard_key`), so it starts with no dot.
-/

namespace LineStore.Documents

variable {name stem : String}

/-- The text of the name of the file that a document is kept in. -/
def key (name : String) : String := Identifier.withExtension name extension

theorem fileName_eq (name : String) : fileName name = Utf8.encode (key name) := rfl

/-- Whether a name carries the extension already. -/
def Carries (name : String) : Prop := ∃ stem, name = stem ++ extension

theorem stem?_eq_some_iff_carried {stem : List Char} :
    Text.stem? extension.toList name.toList = some stem ↔
      name = String.ofList stem ++ extension := by
  rw [Text.stem?_eq_some_iff, ← String.toList_inj, String.toList_append, String.toList_ofList]

theorem carries_iff_isSome :
    Carries name ↔ (Text.stem? extension.toList name.toList).isSome = true := by
  rw [Option.isSome_iff_exists]
  constructor
  · rintro ⟨stem, h⟩
    refine ⟨stem.toList, stem?_eq_some_iff_carried.2 ?_⟩
    rw [h, String.ofList_toList]
  · rintro ⟨stem, h⟩
    exact ⟨_, stem?_eq_some_iff_carried.1 h⟩

theorem key_of_carries (h : Carries name) : key name = name := by
  rw [key, Identifier.withExtension, if_pos (carries_iff_isSome.1 h)]

theorem key_of_not_carries (h : ¬ Carries name) : key name = name ++ extension := by
  rw [key, Identifier.withExtension, if_neg (mt carries_iff_isSome.2 h)]

/-- **A key is its document's name, or one that its name is the stem of.** -/
theorem key_cases (name : String) :
    Carries name ∧ key name = name ∨ ¬ Carries name ∧ key name = name ++ extension := by
  by_cases h : Carries name
  · exact .inl ⟨h, key_of_carries h⟩
  · exact .inr ⟨h, key_of_not_carries h⟩

theorem hasDotHazard_extended :
    Identifier.hasDotHazard (stem ++ extension).toList = false ↔
      stem.toList ≠ [] ∧ Identifier.hasDotHazard stem.toList = false := by
  have he : (stem ++ extension).toList = stem.toList ++ '.' :: ['t', 'x', 't'] := by
    rw [String.toList_append]
    rfl
  rw [he, Identifier.hasDotHazard_join]
  constructor
  · intro h
    exact h.1
  · intro h
    exact ⟨h, by decide, by decide⟩

theorem hasDotHazard_key (h : Identifier.isDocumentName name = true) :
    Identifier.hasDotHazard (key name).toList = false := by
  obtain ⟨hne, _, hd, _⟩ := Identifier.isDocumentName_iff.1 h
  rcases key_cases name with ⟨_, hk⟩ | ⟨_, hk⟩
  · rw [hk]
    exact hd
  · rw [hk]
    exact hasDotHazard_extended.2 ⟨hne, hd⟩

theorem key_visible (h : Identifier.isDocumentName name = true) :
    (key name).toList.head? ≠ some '.' :=
  (Identifier.hasDotHazard_eq_false_iff.1 (hasDotHazard_key h)).1

theorem isDocumentName_stem (h : Identifier.isDocumentName (stem ++ extension) = true) :
    Identifier.isDocumentName stem = true := by
  obtain ⟨_, hl, hd, hf⟩ := Identifier.isDocumentName_iff.1 h
  obtain ⟨hne, hs⟩ := hasDotHazard_extended.1 hd
  rw [String.toList_append] at hl hf
  refine Identifier.isDocumentName_iff.2 ⟨hne, ?_, hs, ?_⟩
  · rw [List.length_append] at hl
    omega
  · intro c hc
    exact hf c (List.mem_append_left _ hc)

theorem isDocumentName_of_key (h : Identifier.isDocumentName name = true)
    (hk : key name = stem ++ extension) : Identifier.isDocumentName stem = true := by
  rcases key_cases name with ⟨_, hn⟩ | ⟨_, hn⟩
  · rw [hn] at hk
    rw [hk] at h
    exact isDocumentName_stem h
  · have hs : stem = name := String.append_left_inj extension |>.1 (hk ▸ hn)
    rw [hs]
    exact h

end LineStore.Documents
