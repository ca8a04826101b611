/-!
# Whole numbers as text

Numbers are written with the fewest decimal digits. They are read more widely: leading zeros and,
where a caller allows it, one sign; but never past the bound that the reader states, so a numeral
that does not fit is *no* number instead of a smaller one.
-/

namespace LineStore.Numeral

/-- The decimal digits of `n`. -/
def write (n : Nat) : List Char := Nat.toDigits 10 n

/-- The decimal digits of `n` behind its sign, which positive numbers do not have. -/
def writeSigned (n : Int) : List Char := if n < 0 then '-' :: write n.natAbs else write n.natAbs

/-- The number that a non-empty run of ASCII digits stands for. -/
def digits? (s : List Char) : Option Nat :=
  if s ≠ [] ∧ s.all Char.isDigit then some (Nat.ofDigitChars 10 s 0) else none

/-- A number below `bound`, with or without a plus sign. -/
def read? (bound : Nat) (s : List Char) : Option Nat :=
  let body := match s with
    | '+' :: rest => rest
    | _ => s
  (digits? body).filter (· < bound)

/-- A whole number from `-bound` to `bound - 1`, with or without a sign. -/
def readSigned? (bound : Nat) : List Char → Option Int
  | '-' :: rest => ((digits? rest).filter (· ≤ bound)).map fun n => -(n : Int)
  | s => (read? bound s).map Int.ofNat

/-- `n` with zeros in front until it has `width` digits. -/
def padded (width n : Nat) : List Char :=
  List.replicate (width - (write n).length) '0' ++ write n

/-- The value of a digit in a base up to sixteen, of a letter in either case. -/
def digitValue? (c : Char) : Option Nat :=
  if c.isDigit then some (c.toNat - '0'.toNat)
  else if 'a' ≤ c ∧ c ≤ 'f' then some (c.toNat - 'a'.toNat + 10)
  else if 'A' ≤ c ∧ c ≤ 'F' then some (c.toNat - 'A'.toNat + 10)
  else none

/-- Whether a character is a digit in the base. -/
def isDigitIn (base : Nat) (c : Char) : Bool := (digitValue? c).any (· < base)

/-- The number that a run of digits stands for in the base. -/
def ofDigitsIn (base : Nat) (s : List Char) : Nat :=
  s.foldl (fun n c => n * base + (digitValue? c).getD 0) 0

/-- The hexadecimal digits of `n`, small letters, at least `width` of them. -/
def hex (width n : Nat) : List Char :=
  let s := Nat.toDigits 16 n
  List.replicate (width - s.length) '0' ++ s

theorem digits?_write (n : Nat) : digits? (write n) = some n := by
  unfold digits? write
  rw [if_pos]
  · simp [Nat.ofDigitChars_toDigits]
  · refine ⟨by simp [Nat.toDigits_ne_nil], ?_⟩
    exact List.all_eq_true.2 fun c hc => Nat.isDigit_of_mem_toDigits (by decide) (by decide) hc

end LineStore.Numeral
