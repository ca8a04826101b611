import LineStore.Json.Printer
import LineStore.Json.Token
import LineStore.Proofs.Text.Ascii

/-!
# Strings and numbers read back

What is written of a string is read as that string, whatever follows it, since its end is the first
quote that is not escaped. A number has no end of its own: it is read back if what follows it cannot
go on with it (`Stops`). Of the numbers these are the whole ones that fit a word (`Number.Whole`).
-/

namespace LineStore

namespace Numeral

/-- A positive number does not start with a zero. -/
theorem head?_write {n : Nat} (h : 0 < n) : (write n).head? ≠ some '0' := by
  unfold write
  induction n using Nat.strongRecOn with
  | ind n ih =>
    by_cases hn : n < 10
    · have hdigit : ∀ n < 10, 0 < n → [Nat.digitChar n].head? ≠ some '0' := by decide
      rw [Nat.toDigits_of_lt_base hn]
      exact hdigit n hn h
    · -- The first digit is that of the number without its last one.
      have hd : 0 < n / 10 := by omega
      obtain ⟨c, more, hc⟩ : ∃ c more, Nat.toDigits 10 (n / 10) = c :: more :=
        List.exists_cons_of_ne_nil Nat.toDigits_ne_nil
      have hi := ih (n / 10) (by omega) hd
      rw [Nat.toDigits_of_base_le (by decide) (by omega), hc, List.cons_append, List.head?_cons]
      rw [hc, List.head?_cons] at hi
      exact hi

theorem write_eq_cons (n : Nat) : ∃ c digits, write n = c :: digits ∧ c.isDigit = true := by
  obtain ⟨c, digits, hw⟩ : ∃ c digits, write n = c :: digits :=
    List.exists_cons_of_ne_nil Nat.toDigits_ne_nil
  exact ⟨c, digits, hw, isDigit_of_mem_write (hw ▸ List.mem_cons_self)⟩

end Numeral

namespace Json

variable {rest : List Char} {n : Nat}

/-! ## Strings -/

theorem length_le_byteCount (s : List Char) : s.length ≤ byteCount s := by
  have hle : ∀ (s : List Char) (k : Nat),
      k + s.length ≤ s.foldl (fun n c => n + c.utf8Size) k := by
    intro s
    induction s with
    | nil => simp
    | cons c rest ih =>
      intro k
      have hc := Char.utf8Size_pos c
      have := ih (k + c.utf8Size)
      simp only [List.length_cons, List.foldl_cons]
      omega
  simpa [byteCount] using hle s 0

theorem readHex_append {digits : List Char} (hl : digits.length = 4)
    (hd : digits.all (Numeral.isDigitIn 16) = true) (rest : List Char) :
    readHex (digits ++ rest) = .ok (Numeral.ofDigitsIn 16 digits, rest) := by
  have hlong : ¬ byteCount (digits ++ rest) < 4 := by
    have := length_le_byteCount (digits ++ rest)
    rw [List.length_append] at this
    omega
  unfold readHex
  rw [if_neg hlong, List.take_left' hl, List.drop_left' hl]
  exact if_pos hd

/-- The escapes by number that are written are those of control characters. -/
theorem readCode_hex (h : n < 0x20) (rest : List Char) :
    readCode (Numeral.hex 4 n ++ rest) = .ok (Char.ofNat n, rest) := by
  have hx : ∀ n < 0x20, (Numeral.hex 4 n).length = 4 ∧
      (Numeral.hex 4 n).all (Numeral.isDigitIn 16) = true ∧
      Numeral.ofDigitsIn 16 (Numeral.hex 4 n) = n ∧ isSecondHalf n = false ∧
      isFirstHalf n = false := by decide +kernel
  obtain ⟨hl, hd, hv, hsecond, hfirst⟩ := hx n h
  unfold readCode
  rw [readHex_append hl hd, hv]
  show (if isSecondHalf n = true then _ else _) = _
  rw [hsecond, hfirst]
  rfl

/-- **A character is read as one piece of a string.** -/
theorem readStringFrom_escape (limit : Nat) (done : List Char) (c : Char) (rest : List Char) :
    readStringFrom (limit + 1) done (escape c ++ rest) = readStringFrom limit (c :: done) rest := by
  unfold escape
  split
  case h_8 hquote hslash _ _ _ _ _ =>
    split
    · rename_i hc
      have hlt : c.toNat < 0x20 := hc
      have hread : readEscape ('u' :: (Numeral.hex 4 c.toNat ++ rest)) = .ok (c, rest) := by
        show readCode _ = _
        rw [readCode_hex hlt, Char.ofNat_toNat]
      rw [List.cons_append, List.cons_append, readStringFrom, if_neg (by decide), if_pos rfl, hread]
    · rename_i hc
      rw [List.singleton_append, readStringFrom, if_neg hquote, if_neg hslash, if_neg hc]
  all_goals rfl

theorem length_flatMap_escape (s : List Char) : s.length ≤ (s.flatMap escape).length := by
  have hpos : ∀ c, 0 < (escape c).length := by
    intro c
    unfold escape
    split
    case h_8 => split <;> simp
    all_goals decide
  induction s with
  | nil => simp
  | cons c rest ih =>
    have := hpos c
    rw [List.flatMap_cons, List.length_append, List.length_cons]
    omega

theorem writeString_append (s : String) (rest : List Char) :
    writeString s ++ rest = '"' :: (s.toList.flatMap escape ++ '"' :: rest) := by
  simp [writeString]

/-- **A string is read back, up to its closing quote.** -/
theorem readString_flatMap_escape (s rest : List Char) :
    readString (s.flatMap escape ++ '"' :: rest) = .ok (s, rest) := by
  have hfrom : ∀ (s done : List Char) (limit : Nat), s.length < limit →
      readStringFrom limit done (s.flatMap escape ++ '"' :: rest) =
        .ok (done.reverse ++ s, rest) := by
    intro s
    induction s with
    | nil =>
      intro done limit hl
      obtain ⟨more, rfl⟩ := Nat.exists_eq_add_of_lt hl
      simp [readStringFrom]
    | cons c s ih =>
      intro done limit hl
      obtain ⟨more, rfl⟩ : ∃ more, limit = more + 1 := ⟨limit - 1, by omega⟩
      rw [List.flatMap_cons, List.append_assoc, readStringFrom_escape,
        ih _ _ (Nat.lt_of_succ_lt_succ hl)]
      simp
  -- The limit counts pieces, and a piece has at least one character.
  unfold readString
  rw [hfrom s [] _ ?_]
  · rfl
  · have := length_flatMap_escape s
    rw [List.length_append]
    omega

/-! ## Numbers -/

theorem ne_of_isDigit {c d : Char} (hc : c.isDigit = true) (hd : d.isDigit = false) : c ≠ d := by
  rintro rfl
  rw [hc] at hd
  cases hd

theorem isBlank_of_isDigit {c : Char} (h : c.isDigit = true) : isBlank c = false := by
  have hne : ∀ d : Char, d.isDigit = false → c ≠ d := fun _ => ne_of_isDigit h
  simp [isBlank, hne]

/-- No number goes on with this text. -/
def Stops (s : List Char) : Prop :=
  ∀ c, s.head? = some c → c.isDigit = false ∧ c ≠ '.' ∧ c ≠ 'e' ∧ c ≠ 'E'

theorem stops_nil : Stops [] := fun _ h => by cases h

theorem stops_cons {c : Char} (h : c = ',' ∨ c = ']' ∨ c = '\x7d') (rest : List Char) :
    Stops (c :: rest) := by
  intro d hd
  cases hd
  rcases h with rfl | rfl | rfl <;> decide

/-- A whole number that is read as one. -/
def Number.Whole : Number → Prop
  | .natural n => n < wordLimit
  | .negative n => 0 < n ∧ n ≤ wordLimit / 2
  | .double _ => False

theorem le_ofDigitChars (digits : List Char) (n : Nat) : n ≤ Nat.ofDigitChars 10 digits n := by
  induction digits generalizing n with
  | nil => exact Nat.le_refl n
  | cons c more ih =>
    rw [Nat.ofDigitChars_cons]
    exact Nat.le_trans (by omega) (ih _)

theorem absorb_eq {digits : List Char} (h : Nat.ofDigitChars 10 digits n < wordLimit) :
    absorb n digits = (Nat.ofDigitChars 10 digits n, []) := by
  induction digits generalizing n with
  | nil => rfl
  | cons c more ih =>
    rw [Nat.ofDigitChars_cons, Nat.mul_comm] at h ⊢
    rw [absorb, if_pos (Nat.lt_of_le_of_lt (le_ofDigitChars more _) h)]
    exact ih h

/-- The digits in front are all of the number, if nothing goes on with it. -/
theorem readAfterDigits_eq {negative : Bool} {digits : List Char} {number : Number}
    (hd : Nat.ofDigitChars 10 digits 0 = n) (hn : n < wordLimit)
    (hw : whole? negative n = some number) (hr : Stops rest) :
    readAfterDigits negative digits rest = .ok (number, rest) := by
  have ha : absorb 0 digits = (n, []) := by
    rw [absorb_eq (by rw [hd]; exact hn), hd]
  have he : rest.head? ≠ some 'e' := fun h => (hr _ h).2.2.1 rfl
  have hE : rest.head? ≠ some 'E' := fun h => (hr _ h).2.2.2 rfl
  unfold readAfterDigits
  rw [ha]
  dsimp only
  split
  · exact absurd rfl (hr '.' rfl).2.1
  · rw [if_pos ⟨rfl, he, hE⟩, hw]

/-- **A number is read back after its sign, if nothing goes on with it.** -/
theorem readNumber_write (negative : Bool) {number : Number} (hn : n < wordLimit)
    (hw : whole? negative n = some number) (hr : Stops rest) :
    readNumber negative (Numeral.write n ++ rest) = .ok (number, rest) := by
  have hdigits : ∀ c ∈ Numeral.write n, c.isDigit = true := fun c => Numeral.isDigit_of_mem_write
  have hvalue : Nat.ofDigitChars 10 (Numeral.write n) 0 = n :=
    Nat.ofDigitChars_toDigits (by decide) (by decide)
  have hfront : rest.head?.any Char.isDigit = false := by
    cases hh : rest.head? with
    | none => rfl
    | some c => exact (hr c hh).1
  have htake : rest.takeWhile Char.isDigit = [] := by
    cases rest with
    | nil => rfl
    | cons c more => exact List.takeWhile_cons_of_neg (by simp [(hr c rfl).1])
  have hdrop : rest.dropWhile Char.isDigit = rest := by
    cases rest with
    | nil => rfl
    | cons c more => exact List.dropWhile_cons_of_neg (by simp [(hr c rfl).1])
  rcases Nat.eq_zero_or_pos n with rfl | hpos
  · show readNumber negative ('0' :: rest) = _
    rw [readNumber, hfront]
    exact readAfterDigits_eq rfl hn hw hr
  · obtain ⟨c, more, hc, hdigit⟩ := Numeral.write_eq_cons n
    have hzero : c ≠ '0' := by
      have := Numeral.head?_write hpos
      rw [hc] at this
      simpa using this
    rw [hc] at hdigits hvalue ⊢
    have hmore : ∀ d ∈ more, d.isDigit = true := fun d h => hdigits d (List.mem_cons_of_mem _ h)
    rw [List.cons_append, readNumber, if_pos hdigit,
      List.takeWhile_append_of_pos hmore, List.dropWhile_append_of_pos hmore, htake, hdrop,
      List.append_nil]
    · exact readAfterDigits_eq hvalue hn hw hr
    · exact hzero

end Json
end LineStore
