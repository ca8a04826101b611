import LineStore.Text.Numeral

/-!
# Dates and times in TOML

A date, a time of day, or both with or without the offset from universal time. `normal?` checks a
text and gives the form in which it is shown: a capital `T` between date and time, the fraction of
the second without zeros at its end and no longer than nine digits, and the offset with its sign.
-/

namespace LineStore.Toml.Moment

/-- A number of exactly `count` digits. -/
def number? (count : Nat) (s : List Char) : Option (Nat × List Char) :=
  let digits := s.take count
  if digits.length = count ∧ digits.all Char.isDigit then
    some (Nat.ofDigitChars 10 digits 0, s.drop count)
  else none

/-- What follows the character `c`. -/
def pass? (c : Char) : List Char → Option (List Char)
  | [] => none
  | d :: rest => if d = c then some rest else none

/-- A date: its shown form, and what follows. -/
def date? (s : List Char) : Option (List Char × List Char) := do
  let (year, s) ← number? 4 s
  let (month, s) ← number? 2 (← pass? '-' s)
  let (day, s) ← number? 2 (← pass? '-' s)
  if 1 ≤ month ∧ month ≤ 12 ∧ 1 ≤ day ∧ day ≤ 31 then
    some (Numeral.padded 4 year ++ '-' :: Numeral.padded 2 month ++ '-' :: Numeral.padded 2 day, s)
  else none

/-- The fraction of a second, after its point. -/
def fraction? (s : List Char) : Option (List Char × List Char) :=
  let digits := s.takeWhile Char.isDigit
  let kept := ((digits.take 9).reverse.dropWhile (· = '0')).reverse
  if digits = [] then none
  else some (if kept = [] then [] else '.' :: kept, s.dropWhile Char.isDigit)

/-- A time of day: its shown form, and what follows. -/
def time? (s : List Char) : Option (List Char × List Char) := do
  let (hour, s) ← number? 2 s
  let (minute, s) ← number? 2 (← pass? ':' s)
  let (second, s) ← number? 2 (← pass? ':' s)
  let (fraction, s) ← match s with
    | '.' :: rest => fraction? rest
    | _ => some ([], s)
  if hour ≤ 24 ∧ minute ≤ 59 ∧ second ≤ 59 then
    some (Numeral.padded 2 hour ++ ':' :: Numeral.padded 2 minute ++
      ':' :: Numeral.padded 2 second ++ fraction, s)
  else none

/-- An offset: its shown form, and what follows. Zero hours have a plus sign. -/
def offset? (s : List Char) : Option (List Char × List Char) := do
  match s with
  | [] => some ([], [])
  | c :: rest =>
    if c = 'Z' ∨ c = 'z' then some (['Z'], rest)
    else if c = '+' ∨ c = '-' then
      let (hours, rest) ← number? 2 rest
      let (minutes, rest) ← number? 2 (← pass? ':' rest)
      let sign := if c = '-' ∧ hours ≠ 0 then '-' else '+'
      some (sign :: Numeral.padded 2 hours ++ ':' :: Numeral.padded 2 minutes, rest)
    else none

/-- The form in which a date, a time or both is shown. -/
def normal? (s : List Char) : Option String := do
  let (shown, rest) ← if s[2]? = some ':' then time? s
    else do
      let (date, rest) ← date? s
      match rest with
      | c :: after =>
        if c = 'T' ∨ c = 't' ∨ c = ' ' then
          let (time, rest) ← time? after
          let (offset, rest) ← offset? rest
          some (date ++ 'T' :: time ++ offset, rest)
        else some (date, rest)
      | [] => some (date, [])
  if rest = [] then some (String.ofList shown) else none

end LineStore.Toml.Moment
