import LineStore.Text.Numeral

/-!
# TOML strings

Four kinds: in double quotes with escapes, in single quotes without, and either of them in threes
over several lines. A break right after opening threes is dropped, and so is a backslash at the end
of a line with all the blanks and breaks that follow it. Up to two more quotes may stand against
closing threes; they belong to the text.

Texts are read with their line breaks folded to single line feeds.
-/

namespace LineStore.Toml

/-- Whether a character may stand in a string as it is. -/
def isPlain (c : Char) : Bool := c = '\t' || (' ' ≤ c && c ≠ '\x7f')

/-- The character that `count` hexadecimal digits spell. -/
def readCode? (count : Nat) (s : List Char) : Option (Char × List Char) :=
  let digits := s.take count
  let n := Numeral.ofDigitsIn 16 digits
  if digits.length = count ∧ digits.all (Numeral.isDigitIn 16) ∧ n.isValidChar then
    some (Char.ofNat n, s.drop count)
  else none

/-- Whether a character is a blank within a line. -/
def isBlank (c : Char) : Bool := c = ' ' || c = '\t'

/-- What follows an escaped line break and the blanks and breaks after it; nothing if something else
stands on the line. -/
def skipBreak? (s : List Char) : Option (List Char) :=
  match s.dropWhile isBlank with
  | [] => some []
  | c :: rest => if c = '\n' then some (rest.dropWhile fun c => isBlank c || c = '\n') else none

/-- The characters of an escape, after its backslash. -/
def readEscape? (multiline : Bool) : List Char → Option (List Char × List Char)
  | [] => none
  | c :: rest =>
    match c with
    | '"' => some (['"'], rest)
    | '\\' => some (['\\'], rest)
    | 'b' => some (['\x08'], rest)
    | 'f' => some (['\x0c'], rest)
    | 'n' => some (['\n'], rest)
    | 'r' => some (['\r'], rest)
    | 't' => some (['\t'], rest)
    | 'u' => (readCode? 4 rest).map fun (d, rest) => ([d], rest)
    | 'U' => (readCode? 8 rest).map fun (d, rest) => ([d], rest)
    | _ =>
      if multiline ∧ (isBlank c ∨ c = '\n') then (skipBreak? (c :: rest)).map fun rest => ([], rest)
      else none

/-- Reads up to the closing quote, in at most `limit` pieces; `done` holds what was read, last
first. -/
def readLine? (quote : Char) : Nat → List Char → List Char → Option (List Char × List Char)
  | 0, _, _ => none
  | _ + 1, _, [] => none
  | limit + 1, done, c :: rest =>
    if c = quote then some (done.reverse, rest)
    else if c = '\\' ∧ quote = '"' then
      match readEscape? false rest with
      | some (cs, rest) => readLine? quote limit (cs.reverse ++ done) rest
      | none => none
    else if isPlain c then readLine? quote limit (c :: done) rest
    else none

/-- Reads up to the closing threes, in at most `limit` pieces. -/
def readLines? (quote : Char) : Nat → List Char → List Char → Option (List Char × List Char)
  | 0, _, _ => none
  | _ + 1, _, [] => none
  | limit + 1, done, c :: rest =>
    if c = quote then
      let quotes := (c :: rest).takeWhile (· = quote)
      if quotes.length < 3 then readLines? quote limit (c :: done) rest
      else
        let kept := min 2 (quotes.length - 3)
        some ((List.replicate kept quote ++ done).reverse, rest.drop (kept + 2))
    else if c = '\\' ∧ quote = '"' then
      match readEscape? true rest with
      | some (cs, rest) => readLines? quote limit (cs.reverse ++ done) rest
      | none => none
    else if c = '\n' ∨ isPlain c then readLines? quote limit (c :: done) rest
    else none

/-- A string, after its first quote: the characters, whether it may span lines, and what follows. -/
def readString? (quote : Char) (s : List Char) : Option (List Char × Bool × List Char) :=
  match s with
  | c :: d :: rest =>
    if c = quote ∧ d = quote then
      let body := if rest.head? = some '\n' then rest.tail else rest
      (readLines? quote (body.length + 1) [] body).map fun (text, rest) => (text, true, rest)
    else (readLine? quote (s.length + 1) [] s).map fun (text, rest) => (text, false, rest)
  | _ => (readLine? quote (s.length + 1) [] s).map fun (text, rest) => (text, false, rest)

end LineStore.Toml
