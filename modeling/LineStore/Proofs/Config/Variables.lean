import LineStore.Config.Environment

/-!
# What variables are taken for

A variable is a text, and what it is taken for is found out without a look at its field. A number
field gets what it was given by that (`ofVariable_of_read?`). A text field gets its text back from
what the text was taken for: **in the spelling of the value** if it reads as one (`respelled`), so
`007` becomes `7`, and as it was if it has a slash in it (`respelled_of_slash`).
-/

namespace LineStore.Config

/-! ## Variables of number fields -/

section

variable {c : Char} {s word : List Char} {v : String} {n : Nat}

theorem toLower_of_isDigit (h : c.isDigit = true) : c.toLower = c := by
  simp only [Char.isDigit, Bool.and_eq_true, decide_eq_true_eq] at h
  apply dif_neg
  intro hu
  exact absurd (UInt32.le_trans hu.1 h.2) (by decide)

/-- A text is not a word in small letters if it has a character that the word has not. -/
theorem map_toLower_ne (hc : c ∈ s) (hl : c.toLower = c) (hw : c ∉ word) :
    s.map Char.toLower ≠ word := by
  rintro rfl
  exact hw (List.mem_map.2 ⟨c, hc, hl⟩)

/-- What reads as a number has a digit, and its sign is a plus sign if it has one. -/
theorem of_read? (h : Numeral.read? integerBound s = some n) :
    (∃ c ∈ s, c.isDigit = true) ∧ s.head? ≠ some '-' := by
  have hdigits : ∀ {body : List Char},
      (Numeral.digits? body).filter (· < integerBound) = some n →
        body ≠ [] ∧ ∀ c ∈ body, c.isDigit = true := by
    intro body hb
    obtain ⟨hd, -⟩ := Option.filter_eq_some_iff.1 hb
    unfold Numeral.digits? at hd
    split at hd
    · rename_i hall
      exact ⟨hall.1, List.all_eq_true.1 hall.2⟩
    · cases hd
  unfold Numeral.read? at h
  dsimp only at h
  split at h
  · obtain ⟨hne, hall⟩ := hdigits h
    obtain ⟨c, hc⟩ := List.exists_mem_of_ne_nil _ hne
    exact ⟨⟨c, List.mem_cons_of_mem _ hc, hall c hc⟩, by simp⟩
  · obtain ⟨hne, hall⟩ := hdigits h
    obtain ⟨c, rest, rfl⟩ := List.exists_cons_of_ne_nil hne
    refine ⟨⟨c, List.mem_cons_self, hall c List.mem_cons_self⟩, ?_⟩
    intro hc
    cases hc
    exact absurd (hall '-' List.mem_cons_self) (by decide)

/-- **A variable that reads as a number is taken for that number.** -/
theorem ofVariable_of_read? (h : Numeral.read? integerBound v.toList = some n) :
    Scalar.ofVariable v = .integer n := by
  obtain ⟨⟨c, hc, hd⟩, hsign⟩ := of_read? h
  have hword : ∀ word : List Char, word.any Char.isDigit = false →
      v.toList.map Char.toLower ≠ word := by
    intro word hw
    refine map_toLower_ne hc (toLower_of_isDigit hd) ?_
    intro hm
    exact List.any_eq_false.1 hw c hm hd
  have hsigned : Numeral.readSigned? integerBound v.toList = some (n : Int) := by
    unfold Numeral.readSigned?
    split
    · rename_i hs
      rw [hs] at hsign
      exact absurd rfl hsign
    · rw [h]
      rfl
  unfold Scalar.ofVariable
  dsimp only
  rw [if_neg (hword _ (by decide)), if_neg (hword _ (by decide)), hsigned]

/-! ## Variables of text fields -/

/-- The text that a text field takes from a variable. -/
def respelled (v : String) : String :=
  match Scalar.ofVariable v with
  | .boolean b => if b then "true" else "false"
  | .integer n => String.ofList (Numeral.writeSigned n)
  | .float bits => String.ofList (Decimal.Layout.plain.writeBits bits)
  | _ => v

theorem toText_ofVariable (origin : Option String) (v : String) :
    Setting.toText (.scalar origin (.ofVariable v)) = .ok (respelled v) := by
  have hkinds : (∃ b, Scalar.ofVariable v = .boolean b) ∨ (∃ n, Scalar.ofVariable v = .integer n) ∨
      (∃ bits, Scalar.ofVariable v = .float bits) ∨ Scalar.ofVariable v = .text v := by
    unfold Scalar.ofVariable
    dsimp only
    split
    · exact .inl ⟨_, rfl⟩
    · split
      · exact .inl ⟨_, rfl⟩
      · split
        · exact .inr (.inl ⟨_, rfl⟩)
        · split
          · exact .inr (.inr (.inl ⟨_, rfl⟩))
          · exact .inr (.inr (.inr rfl))
  unfold respelled
  rcases hkinds with ⟨b, h⟩ | ⟨n, h⟩ | ⟨bits, h⟩ | h
  all_goals
    rw [h]
    rfl

end

theorem slash_mem_dropWhile {s : List Char} (h : '/' ∈ s) : '/' ∈ s.dropWhile Char.isDigit := by
  rw [← List.takeWhile_append_dropWhile (p := Char.isDigit) (l := s), List.mem_append] at h
  rcases h with h | h
  · have hall : (s.takeWhile Char.isDigit).all Char.isDigit = true := List.all_takeWhile
    exact absurd (List.all_eq_true.1 hall _ h) (by decide)
  · exact h

theorem digits?_of_slash {s : List Char} (h : '/' ∈ s) : Numeral.digits? s = none := by
  apply if_neg
  rintro ⟨-, hall⟩
  exact absurd (List.all_eq_true.1 hall _ h) (by decide)

theorem decimal?_of_slash {s : List Char} (h : '/' ∈ s) : decimal? s = none := by
  unfold decimal?
  extract_lets whole after
  -- The slash is behind the digits, whichever part of a number they are.
  have hrest : '/' ∈ after := slash_mem_dropWhile h
  clear_value after
  split
  rename_i fraction rest hp
  have hmem : '/' ∈ rest := by
    split at hp
    · obtain ⟨-, rfl⟩ := Prod.mk.inj hp
      exact slash_mem_dropWhile (by simpa using hrest)
    · obtain ⟨-, rfl⟩ := Prod.mk.inj hp
      exact hrest
  extract_lets
  split
  · rfl
  · split
    · cases hmem
    · rename_i c rest
      split
      · rfl
      · rename_i hc
        have hexponent : '/' ∈ rest := by
          rcases List.mem_cons.1 hmem with rfl | hm
          · exact absurd (by decide) hc
          · exact hm
        split
        rename_i negative rest hsign
        rw [digits?_of_slash]
        · rfl
        · split at hsign
          · cases hsign
            simpa using hexponent
          · cases hsign
            simpa using hexponent
          · cases hsign
            exact hexponent

theorem double?_of_slash {s : List Char} (h : '/' ∈ s) : double? s = none := by
  unfold double?
  split
  rename_i negative body hb
  have hmem : '/' ∈ body := by
    split at hb
    · cases hb
      simpa using h
    · cases hb
      simpa using h
    · cases hb
      exact h
  have hword : ∀ word : List Char, '/' ∉ word → body.map Char.toLower ≠ word :=
    fun _ => map_toLower_ne hmem (by decide)
  extract_lets
  rw [if_neg, if_neg (hword _ (by decide)), decimal?_of_slash hmem]
  · rfl
  · rintro (hw | hw)
    · exact hword _ (by decide) hw
    · exact hword _ (by decide) hw

/-- **A text with a slash in it is taken as it is**: a variable that holds a path of more than one
name gives that path. -/
theorem respelled_of_slash {v : String} (h : '/' ∈ v.toList) : respelled v = v := by
  have hword : ∀ word : List Char, '/' ∉ word → v.toList.map Char.toLower ≠ word :=
    fun _ => map_toLower_ne h (by decide)
  have hsigned : Numeral.readSigned? integerBound v.toList = none := by
    unfold Numeral.readSigned?
    split
    · rename_i rest hs
      rw [hs] at h
      rw [digits?_of_slash (by simpa using h)]
      rfl
    · unfold Numeral.read?
      dsimp only
      split
      · rename_i rest hs
        rw [hs] at h
        rw [digits?_of_slash (by simpa using h)]
        rfl
      · rw [digits?_of_slash h]
        rfl
  have htext : Scalar.ofVariable v = .text v := by
    unfold Scalar.ofVariable
    extract_lets
    rw [if_neg (hword _ (by decide)), if_neg (hword _ (by decide)), hsigned, double?_of_slash h]
  rw [respelled, htext]

end LineStore.Config
