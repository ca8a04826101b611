import LineStore.Proofs.Service.Machine
import LineStore.Proofs.Service.OneEntry

/-!
# The names of what is kept

Whatever name is accepted, what is kept under it is one entry directly under its root, and one that
shows (`PlainName`): the rule on dots holds of a name put together with dots if it holds of the
parts. Three kinds of name stay apart: a document ends in a `t`, a setting in an `n`, and a hidden
name starts with a dot. Two documents are one exactly if one name is the other with the extension
put behind it (`key_eq_key_iff`).
-/

namespace LineStore

/-- A text that is the name of one entry, and shows. -/
structure PlainName (s : String) : Prop where
  /-- As a path, it is one step. -/
  step : Path.ofString s = ⟨false, [.name (Utf8.encode s)], false⟩
  slash : '/' ∉ s.toList
  here : s ≠ "."
  up : s ≠ ".."
  dots : ¬ ['.', '.'] <:+: s.toList
  visible : s.toList.head? ≠ some '.'
  /-- No write has it for its hidden name. -/
  lasting : ∀ process writes, Utf8.encode s ≠ Host.hiddenName process writes

/-- **Without a separator, a text that is free of hazards is a plain name.** -/
theorem plainName_of_hasDotHazard {s : String} (hne : s.toList ≠ []) (hs : '/' ∉ s.toList)
    (hd : Identifier.hasDotHazard s.toList = false) : PlainName s := by
  obtain ⟨hfront, _, htwo⟩ := Identifier.hasDotHazard_eq_false_iff.1 hd
  have hfront' : (Utf8.encode s).head? ≠ some 0x2E := fun h =>
    hfront (Utf8.head?_of_ascii_encode (a := '.') (by decide) h)
  constructor
  case step =>
    apply Path.ofBytes_name
    · exact fun h => hs ((Utf8.ascii_mem_encode (a := '/') (by decide)).1 h)
    · intro h
      have hempty : s = "" := Utf8.encode_injective h
      rw [hempty] at hne
      exact hne rfl
    · exact hfront'
  case slash => exact hs
  case here =>
    rintro rfl
    exact hfront rfl
  case up =>
    rintro rfl
    exact hfront rfl
  case dots =>
    intro h
    rw [Identifier.hasTwoDots_iff.2 h] at htwo
    cases htwo
  case visible => exact hfront
  case lasting =>
    intro process writes h
    rw [h] at hfront'
    exact hfront' (Host.head?_hiddenName process writes)

namespace Documents

variable {name other : String}

theorem plainName_key (h : Identifier.isDocumentName name = true) : PlainName (key name) :=
  plainName_of_hasDotHazard (key_ne_nil h) (slash_not_mem_key h) (hasDotHazard_key h)

theorem carries_key (name : String) : Carries (key name) := by
  rcases key_cases name with ⟨h, hk⟩ | ⟨-, hk⟩
  · rw [hk]
    exact h
  · rw [hk]
    exact ⟨name, rfl⟩

theorem key_key (name : String) : key (key name) = key name := key_of_carries (carries_key name)

/-- **Two names are of one document only if they are equal or differ by the extension alone.** -/
theorem key_eq_key_iff : key name = key other ↔
    name = other ∨ ¬ Carries other ∧ name = other ++ extension ∨
      ¬ Carries name ∧ other = name ++ extension := by
  constructor
  · intro h
    rcases key_cases name with ⟨_, hn⟩ | ⟨hcn, hn⟩
    · rcases key_cases other with ⟨_, ho⟩ | ⟨hco, ho⟩
      · rw [hn, ho] at h
        exact .inl h
      · rw [hn, ho] at h
        exact .inr (.inl ⟨hco, h⟩)
    · rcases key_cases other with ⟨_, ho⟩ | ⟨_, ho⟩
      · rw [hn, ho] at h
        exact .inr (.inr ⟨hcn, h.symm⟩)
      · rw [hn, ho] at h
        exact .inl ((String.append_left_inj extension).1 h)
  · rintro (rfl | ⟨h, rfl⟩ | ⟨h, rfl⟩)
    · rfl
    · rw [← key_of_not_carries h, key_key]
    · rw [← key_of_not_carries h, key_key]

end Documents

namespace Settings

variable {key level : String}

theorem hasDotHazard_fileText (hk : Identifier.isKey key = true)
    (hl : Identifier.isKey level = true) :
    Identifier.hasDotHazard (fileText key level).toList = false := by
  have ht : (fileText key level).toList =
      (level ++ "." ++ key).toList ++ '.' :: ['j', 's', 'o', 'n'] := by
    unfold fileText
    simp
  obtain ⟨hne, hd, _⟩ := Identifier.isKey_iff.1 (Identifier.isKey_join.2 ⟨hl, hk⟩)
  rw [ht]
  exact Identifier.hasDotHazard_join.2 ⟨⟨hne, hd⟩, by decide, by decide⟩

theorem plainName_fileText (hk : Identifier.isKey key = true) (hl : Identifier.isKey level = true) :
    PlainName (fileText key level) :=
  plainName_of_hasDotHazard (fileText_ne_nil key level) (slash_not_mem_fileText hk hl)
    (hasDotHazard_fileText hk hl)

end Settings

namespace Identifier

/-- The letters, the digits, the dot, the underscore and the hyphen. -/
def InAlphabet (c : Char) : Prop :=
  'A' ≤ c ∧ c ≤ 'Z' ∨ 'a' ≤ c ∧ c ≤ 'z' ∨ '0' ≤ c ∧ c ≤ '9' ∨ c = '.' ∨ c = '_' ∨ c = '-'

theorem isKeyChar_iff {c : Char} : isKeyChar c = true ↔ InAlphabet c := by
  have hupper : c.isUpper = true ↔ 'A' ≤ c ∧ c ≤ 'Z' := decide_eq_true_iff
  have hlower : c.isLower = (decide ('a' ≤ c) && decide (c ≤ 'z')) := rfl
  have hdigit : c.isDigit = (decide ('0' ≤ c) && decide (c ≤ '9')) := rfl
  have hsorts : c.isAlphanum = (c.isUpper || c.isLower || c.isDigit) := rfl
  simp only [isKeyChar, InAlphabet, hsorts, hupper, hlower, hdigit, Bool.or_eq_true,
    Bool.and_eq_true, decide_eq_true_eq, or_assoc]

theorem inAlphabet_of_mem_fileText {key level : String} (hk : isKey key = true)
    (hl : isKey level = true) : ∀ c ∈ (Settings.fileText key level).toList, InAlphabet c := by
  intro c hc
  have ht : (Settings.fileText key level).toList =
      (level ++ "." ++ key).toList ++ ['.', 'j', 's', 'o', 'n'] := by
    unfold Settings.fileText
    simp
  obtain ⟨_, _, hj⟩ := isKey_iff.1 (isKey_join.2 ⟨hl, hk⟩)
  have he : ['.', 'j', 's', 'o', 'n'].all isKeyChar = true := by decide
  rw [ht, List.mem_append] at hc
  rcases hc with hc | hc
  · exact isKeyChar_iff.1 (hj c hc)
  · exact isKeyChar_iff.1 (List.all_eq_true.1 he c hc)

/-- **Accepted names become plain names, and only known ones become the same.** -/
theorem plain_of_accepted :
    (∀ name, isDocumentName name = true →
      PlainName (Documents.key name) ∧
        withExtension (Documents.key name) Documents.extension = Documents.key name) ∧
    (∀ name other, isDocumentName name = true → isDocumentName other = true →
      (Documents.fileName name = Documents.fileName other ↔
        name = other ∨
          ¬ Documents.Carries other ∧ name = other ++ Documents.extension ∨
          ¬ Documents.Carries name ∧ other = name ++ Documents.extension)) ∧
    ∀ key level, isKey key = true → isKey level = true →
      PlainName (Settings.fileText key level) ∧
        (∀ c ∈ (Settings.fileText key level).toList, InAlphabet c) ∧
        ∀ name, isDocumentName name = true →
          Settings.fileName key level ≠ Documents.fileName name := by
  refine ⟨?documents, ?aliases, ?settings⟩
  case documents =>
    intro name h
    exact ⟨Documents.plainName_key h, Documents.key_key name⟩
  case aliases =>
    intro name other _ _
    rw [← Documents.key_eq_key_iff, Documents.fileName_eq, Documents.fileName_eq]
    exact ⟨Utf8.encode_injective, congrArg Utf8.encode⟩
  case settings =>
    intro key level hk hl
    refine ⟨Settings.plainName_fileText hk hl, inAlphabet_of_mem_fileText hk hl, ?_⟩
    intro name _ h
    exact Item.fileName_document_ne name key level h.symm

/-- One document under two names, and a setting whose level and key hold dots of their own. -/
theorem plain_of_accepted_dotted :
    isDocumentName "v1.2" = true ∧ isDocumentName "v1.2.txt" = true ∧
      isKey "font.size" = true ∧ isKey "user.7" = true ∧
      PlainName "v1.2.txt" ∧ Documents.fileName "v1.2" = Documents.fileName "v1.2.txt" ∧
      PlainName "user.7.font.size.json" := by
  have hshort : isDocumentName "v1.2" = true := by decide +kernel
  have hlong : isDocumentName "v1.2.txt" = true := by decide +kernel
  have hkey : isKey "font.size" = true := by decide +kernel
  have hlevel : isKey "user.7" = true := by decide +kernel
  obtain ⟨documents, aliases, settings⟩ := plain_of_accepted
  have hstem : ¬ Documents.Carries "v1.2" := by
    rw [Documents.carries_iff_isSome]
    decide +kernel
  exact ⟨hshort, hlong, hkey, hlevel, (documents _ hlong).1,
    (aliases _ _ hshort hlong).2 (.inr (.inr ⟨hstem, by decide +kernel⟩)),
    (settings _ _ hkey hlevel).1⟩

end Identifier
end LineStore
