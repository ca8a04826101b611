import LineStore.Decimal.Double
import LineStore.Toml.Draft

/-!
# Bare words, numbers and moments in TOML

A value without quotes or brackets starts with a *word*: a run of letters, digits, underscores and
hyphens. Points, colons and plus signs stand between words and not in them, so a number such as
`6.02e+23` is three words, and what a word begins is decided by looking at the word and at the mark
behind it.

Digits may be parted by single underscores. A decimal has no leading zeros; numbers in another base
have no sign and may have them.
-/

namespace LineStore.Toml

/-- Whether a character may stand in a word. -/
def isWordChar (c : Char) : Bool := c.isAlphanum || c = '-' || c = '_'

/-- The word at the front, which may be empty, and what follows. -/
def spanWord (s : List Char) : List Char × List Char :=
  (s.takeWhile isWordChar, s.dropWhile isWordChar)

/-- The word at the front, if there is one, and what follows. -/
def word? (s : List Char) : Option (List Char × List Char) :=
  let (word, rest) := spanWord s
  if word = [] then none else some (word, rest)

/-! ## Digits -/

/-- The digits at the front, without their underscores, and what follows. `zero` says that the
digits so far are a single zero that nothing may follow, `gap` that an underscore came last. -/
def spanDigits? (base : Nat) (zero gap : Bool) : List Char → Option (List Char × List Char)
  | [] => if gap then none else some ([], [])
  | c :: rest =>
    if Numeral.isDigitIn base c then
      if zero then none
      else (spanDigits? base false false rest).map fun (digits, rest) => (c :: digits, rest)
    else if c = '_' ∧ !gap then spanDigits? base zero true rest
    else if gap then none
    else some ([], c :: rest)

/-- One digit at the least. Where leading zeros are refused, a zero in front stands alone. -/
def digits? (base : Nat) (zeros : Bool) (s : List Char) : Option (List Char × List Char) :=
  match s with
  | c :: rest =>
    if Numeral.isDigitIn base c then
      (spanDigits? base (c = '0' && !zeros) false rest).map fun (digits, rest) =>
        (c :: digits, rest)
    else none
  | [] => none

/-- A minus sign, if there is one, and what follows. -/
def sign (s : List Char) : Bool × List Char :=
  match s with
  | '-' :: rest => (true, rest)
  | _ => (false, s)

/-- The bound of whole numbers. -/
def integerBound : Nat := 0x8000000000000000

/-- A whole number, if it fits. -/
def integer? (negative : Bool) (n : Nat) : Option Draft :=
  if negative then if n ≤ integerBound then some (.integer (-n)) else none
  else if n < integerBound then some (.integer n)
  else none

/-- A whole number in a base other than ten, after its mark. -/
def based? (base : Nat) (s : List Char) : Option Draft :=
  match digits? base true s with
  | some (digits, []) => integer? false (Numeral.ofDigitsIn base digits)
  | _ => none

/-! ## Numbers -/

/-- The exponent at the end of a number: its value, and what follows. `tail` is what follows the
digits in their word, `s` what follows the word. -/
def exponent? (tail s : List Char) : Option (Int × List Char) :=
  match tail with
  | [] => some (0, s)
  | c :: tail =>
    if c ≠ 'e' ∧ c ≠ 'E' then none
    else do
      let (negative, body, s) ← match tail with
        | [] => do
          let (word, s) ← word? (if s.head? = some '+' then s.tail else s)
          some (false, word, s)
        | _ =>
          let (negative, body) := sign tail
          some (negative, body, s)
      let (digits, excess) ← digits? 10 true body
      let e : Int := Nat.ofDigitChars 10 digits 0
      if excess = [] then some (if negative then -e else e, s) else none

/-- The double with these digits before and after the point, if it is a number. -/
def float? (negative : Bool) (whole fraction : List Char) (e : Int) : Option Draft :=
  let bits := Decimal.fromDecimal negative (Nat.ofDigitChars 10 (whole ++ fraction) 0)
    (e - fraction.length)
  if Decimal.isFinite bits then some (.float bits) else none

/-- The number that starts with a word, and what follows it. -/
def number? (word s : List Char) : Option (Draft × List Char) :=
  match word with
  | '0' :: 'x' :: digits => (based? 16 digits).map (·, s)
  | '0' :: 'o' :: digits => (based? 8 digits).map (·, s)
  | '0' :: 'b' :: digits => (based? 2 digits).map (·, s)
  | _ =>
    let (negative, body) := sign word
    if word.contains 'e' || word.contains 'E' then do
      let (whole, tail) ← digits? 10 false body
      let (e, s) ← exponent? tail s
      (float? negative whole [] e).map (·, s)
    else if s.head? = some '.' then do
      let (whole, tail) ← digits? 10 false body
      let (after, s) ← word? s.tail
      let (fraction, mark) ← digits? 10 true after
      let (e, s) ← exponent? mark s
      if tail = [] then (float? negative whole fraction e).map (·, s) else none
    else if body = ['i', 'n', 'f'] then some (.float (Decimal.infinityBits negative), s)
    else if body = ['n', 'a', 'n'] then some (.float Decimal.nanBits, s)
    else do
      let (digits, tail) ← digits? 10 false body
      if tail = [] then (integer? negative (Nat.ofDigitChars 10 digits 0)).map (·, s) else none

/-! ## Moments -/

/-- What follows a word. -/
def passWord? (s : List Char) : Option (List Char) := (word? s).map (·.2)

/-- What follows a mark and a word, if the mark comes next. -/
def passPart? (mark : Char) (s : List Char) : Option (List Char) :=
  if s.head? = some mark then passWord? s.tail else some s

/-- What follows the hour of a time, from the colon on: minutes, seconds, fraction and offset. -/
def passTime? (s : List Char) : Option (List Char) := do
  let s ← passWord? s.tail
  if s.head? = some ':' then
    let s ← passWord? s.tail
    let s ← passPart? '.' s
    let s ← passPart? '+' s
    passPart? ':' s
  else none

/-- What follows a moment whose first word was `word`. A single space may part date and time. -/
def passMoment? (s : List Char) : Option (List Char) :=
  let s := match s with
    | ' ' :: rest =>
      match word? rest with
      | some (_, after) => after
      | none => s
    | _ => s
  if s.head? = some ':' then passTime? s else some s

/-- Whether a word cannot be a number because it starts a date. -/
def startsDate (word : List Char) : Bool :=
  word.contains 'T' || word.contains 't' ||
    (word.tail.contains '-' &&
      !(word.zip word.tail).any fun (c, d) => (c = 'e' || c = 'E') && d = '-')

/-- The moment that the text `s` begins with; `after` is what follows the first word of it. Only its
extent is found here. -/
def moment? (s after : List Char) : Option (Draft × List Char) :=
  (passMoment? after).map fun rest => (.moment (s.take (s.length - rest.length)), rest)

/-- The value without quotes or brackets that a text begins with. -/
def bare? (s : List Char) : Option (Draft × List Char) := do
  let (word, after) ← word? s
  if word = ['t', 'r', 'u', 'e'] then some (.boolean true, after)
  else if word = ['f', 'a', 'l', 's', 'e'] then some (.boolean false, after)
  else if word = ['i', 'n', 'f'] ∨ word = ['n', 'a', 'n'] ∨
      word.head?.any fun c => c = '-' || c.isDigit then
    if startsDate word || after.head? == some ':' then moment? s after
    else number? word after
  else none

end LineStore.Toml
