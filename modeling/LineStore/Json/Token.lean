import LineStore.Json.Fault
import LineStore.Json.Value

/-!
# The pieces of a JSON text

Blanks, words, strings and numbers, each read from the front of the text that is left. A piece is
returned with what follows it, or refused with the number of bytes unread at the fault. Where a
reader has looked at a character without taking it, the fault lies behind that character
(`Fault.ahead`); where it stands between two, the fault lies there (`Fault.here`).

Strings and numbers have two readers each. One yields the value; the other only passes over the
piece and is the more generous: it takes lone surrogates and numbers of any size.
-/

namespace LineStore.Json

/-- The number of bytes that a text has. -/
def byteCount (s : List Char) : Nat := s.foldl (fun n c => n + c.utf8Size) 0

namespace Fault

/-- A fault in front of what is left. -/
def here (cause : Cause) (rest : List Char) : Fault := ⟨cause, byteCount rest⟩

/-- A fault at the next byte of what is left. -/
def ahead (cause : Cause) (rest : List Char) : Fault := ⟨cause, byteCount rest - 1⟩

end Fault

/-- Whether JSON lets a character stand between pieces. -/
def isBlank (c : Char) : Bool := c = ' ' || c = '\n' || c = '\t' || c = '\r'

/-- What follows the blanks. -/
def skipBlanks (s : List Char) : List Char := s.dropWhile isBlank

/-- Passes if nothing but blanks is left. -/
def expectEnd (s : List Char) : Except Fault Unit :=
  match skipBlanks s with
  | [] => .ok ()
  | rest => .error (.ahead .trailingCharacters rest)

/-- What follows the colon after a name. -/
def readColon (s : List Char) : Except Fault (List Char) :=
  match skipBlanks s with
  | [] => .error (.here .endInObject [])
  | c :: rest => if c = ':' then .ok rest else .error (.ahead .expectedColon (c :: rest))

/-- What follows the rest of a word. -/
def readWord : List Char → List Char → Except Fault (List Char)
  | [], s => .ok s
  | _ :: _, [] => .error (.here .endInValue [])
  | e :: word, c :: rest =>
    if c = e then readWord word rest else .error (.ahead .expectedWord (c :: rest))

/-! ## Strings -/

/-- The number that four hexadecimal digits spell. -/
def readHex (s : List Char) : Except Fault (Nat × List Char) :=
  if byteCount s < 4 then .error (.here .endInString [])
  else
    let digits := s.take 4
    if digits.all (Numeral.isDigitIn 16) then .ok (Numeral.ofDigitsIn 16 digits, s.drop 4)
    else .error ⟨.invalidEscape, byteCount s - 4⟩

/-- What follows the character `c`, which the second half of a surrogate pair cannot do without. -/
def expectInPair (c : Char) : List Char → Except Fault (List Char)
  | [] => .error (.here .endInString [])
  | d :: rest => if d = c then .ok rest else .error (.ahead .brokenPair (d :: rest))

/-- Whether a number is the first half of a surrogate pair. -/
def isFirstHalf (n : Nat) : Bool := 0xD800 ≤ n && n ≤ 0xDBFF

/-- Whether a number is the second half of a surrogate pair. -/
def isSecondHalf (n : Nat) : Bool := 0xDC00 ≤ n && n ≤ 0xDFFF

/-- The character of an escape by number, after its letter. -/
def readCode (s : List Char) : Except Fault (Char × List Char) := do
  let (n, rest) ← readHex s
  if isSecondHalf n then .error (.here .loneSurrogate rest)
  else if isFirstHalf n then
    let rest ← expectInPair '\\' rest
    let rest ← expectInPair 'u' rest
    let (m, rest) ← readHex rest
    if isSecondHalf m then
      return (Char.ofNat (0x10000 + (n - 0xD800) * 0x400 + (m - 0xDC00)), rest)
    else .error (.here .loneSurrogate rest)
  else return (Char.ofNat n, rest)

/-- The character that a letter after a backslash stands for. -/
def shortEscape? : Char → Option Char
  | '"' => some '"'
  | '\\' => some '\\'
  | '/' => some '/'
  | 'b' => some '\x08'
  | 'f' => some '\x0c'
  | 'n' => some '\n'
  | 'r' => some '\r'
  | 't' => some '\t'
  | _ => none

/-- The character of an escape, after its backslash. -/
def readEscape : List Char → Except Fault (Char × List Char)
  | [] => .error (.here .endInString [])
  | c :: rest =>
    match shortEscape? c with
    | some d => .ok (d, rest)
    | none => if c = 'u' then readCode rest else .error (.ahead .invalidEscape (c :: rest))

/-- Reads a string of at most `limit` pieces; `done` holds what was read, last first. -/
def readStringFrom : Nat → List Char → List Char → Except Fault (List Char × List Char)
  | 0, _, s => .error (.here .endInString s)
  | _ + 1, _, [] => .error (.here .endInString [])
  | limit + 1, done, c :: rest =>
    if c = '"' then .ok (done.reverse, rest)
    else if c = '\\' then
      match readEscape rest with
      | .ok (d, rest) => readStringFrom limit (d :: done) rest
      | .error e => .error e
    else if c < ' ' then .error (.here .controlCharacter rest)
    else readStringFrom limit (c :: done) rest

/-- The characters of a string, after its opening quote. -/
def readString (s : List Char) : Except Fault (List Char × List Char) :=
  readStringFrom (s.length + 1) [] s

/-- Passes over an escape, after its backslash. -/
def skipEscape : List Char → Except Fault (List Char)
  | [] => .error (.here .endInString [])
  | c :: rest =>
    if (shortEscape? c).isSome then .ok rest
    else if c = 'u' then (readHex rest).map (·.2)
    else .error (.ahead .invalidEscape (c :: rest))

/-- Passes over a string of at most `limit` pieces. -/
def skipStringFrom : Nat → List Char → Except Fault (List Char)
  | 0, s => .error (.here .endInString s)
  | _ + 1, [] => .error (.here .endInString [])
  | limit + 1, c :: rest =>
    if c = '"' then .ok rest
    else if c = '\\' then
      match skipEscape rest with
      | .ok rest => skipStringFrom limit rest
      | .error e => .error e
    else if c < ' ' then .error (.here .controlCharacter (c :: rest))
    else skipStringFrom limit rest

/-- Passes over a string, after its opening quote. -/
def skipString (s : List Char) : Except Fault (List Char) := skipStringFrom (s.length + 1) s

/-! ## Numbers -/

/-- The largest whole number that is kept as one. -/
def wordLimit : Nat := UInt64.size

/-- Takes digits into `n` as long as the number stays below the limit; the digits that did not go in
are left over. -/
def absorb : Nat → List Char → Nat × List Char
  | n, [] => (n, [])
  | n, c :: rest =>
    let next := n * 10 + (c.toNat - '0'.toNat)
    if next < wordLimit then absorb next rest else (n, c :: rest)

/-- `f` divided by `10 ^ 308` a number of times. -/
def shrink : Nat → Float → Float
  | 0, f => f
  | times + 1, f => if f == 0 then f else shrink times (f / Float.ofScientific 1 false 308)

/-- The double for `n * 10 ^ e`, rounded at each multiplication and division; nothing if it is too
large. No power of ten beyond the largest double is used. -/
def assemble (negative : Bool) (n : Nat) (e : Int) : Option Number :=
  let start := (UInt64.ofNat n).toFloat
  let signed := fun f : Float => Number.double (if negative then -f else f).toBits
  if 308 < e then if n = 0 then some (signed start) else none
  else if e < 0 then
    let times := (e.natAbs - 1) / 308
    some (signed (shrink times start / Float.ofScientific 1 false (e.natAbs - 308 * times)))
  else
    let f := start * Float.ofScientific 1 false e.toNat
    if f.isInf then none else some (signed f)

/-- The bound of the exponents that are counted exactly. -/
def exponentLimit : Nat := 0x80000000

/-- An exponent, clamped. -/
def clampExponent (e : Int) : Int := max (-(exponentLimit : Int)) (min (exponentLimit - 1) e)

/-- The digits up to and with the one that brings their number to the limit, if one does. -/
def overflowAt : Nat → List Char → Option (List Char)
  | _, [] => none
  | n, c :: rest =>
    let next := n * 10 + (c.toNat - '0'.toNat)
    if next < exponentLimit then overflowAt next rest else some rest

/-- The number for `n * 10 ^ e` followed by an exponent, after its letter. -/
def readExponent (negative : Bool) (n : Nat) (e : Int) (s : List Char) :
    Except Fault (Number × List Char) :=
  let (down, s) := match s with
    | '+' :: rest => (false, rest)
    | '-' :: rest => (true, rest)
    | _ => (false, s)
  let digits := s.takeWhile Char.isDigit
  let rest := s.dropWhile Char.isDigit
  if digits = [] then
    match s with
    | [] => .error (.here .endInValue [])
    | _ => .error (.ahead .invalidNumber s)
  else
    match overflowAt 0 digits with
    | some unread =>
      if n ≠ 0 ∧ !down then .error (.here .numberOutOfRange (unread ++ rest))
      else .ok (.double (if negative then (-0.0 : Float) else 0.0).toBits, rest)
    | none =>
      let written : Int := Nat.ofDigitChars 10 digits 0
      match assemble negative n (clampExponent (if down then e - written else e + written)) with
      | some number => .ok (number, rest)
      | none => .error (.here .numberOutOfRange rest)

/-- The number for `n * 10 ^ e` followed by an exponent or by nothing more. -/
def readMagnitude (negative : Bool) (n : Nat) (e : Int) (s : List Char) :
    Except Fault (Number × List Char) :=
  match s with
  | 'e' :: rest => readExponent negative n e rest
  | 'E' :: rest => readExponent negative n e rest
  | _ =>
    match assemble negative n e with
    | some number => .ok (number, s)
    | none => .error (.here .numberOutOfRange s)

/-- A whole number, where it fits: below the limit, or not too far below zero. There is no whole
number for minus zero. -/
def whole? (negative : Bool) (n : Nat) : Option Number :=
  if !negative then some (.natural n)
  else if 0 < n ∧ n ≤ wordLimit / 2 then some (.negative n)
  else none

/-- The number with the digits `digits` in front of the point, if one follows. -/
def readAfterDigits (negative : Bool) (digits s : List Char) : Except Fault (Number × List Char) :=
  let (n, excess) := absorb 0 digits
  match s with
  | '.' :: rest =>
    let fraction := rest.takeWhile Char.isDigit
    let rest := rest.dropWhile Char.isDigit
    if fraction = [] then
      match rest with
      | [] => .error (.here .endInValue [])
      | _ => .error (.ahead .invalidNumber rest)
    else
      -- Digits that did not go in count as places only.
      let (n, lost) := absorb n fraction
      readMagnitude negative n ((excess.length : Int) - (fraction.length - lost.length)) rest
  | _ =>
    let plain := excess = [] ∧ s.head? ≠ some 'e' ∧ s.head? ≠ some 'E'
    match if plain then whole? negative n else none with
    | some number => .ok (number, s)
    | none => readMagnitude negative n excess.length s

/-- A number, after its sign. -/
def readNumber (negative : Bool) (s : List Char) : Except Fault (Number × List Char) :=
  match s with
  | [] => .error (.here .endInValue [])
  | '0' :: rest =>
    if (rest.head?.any Char.isDigit) then .error (.ahead .invalidNumber rest)
    else readAfterDigits negative ['0'] rest
  | c :: rest =>
    if c.isDigit then
      readAfterDigits negative (c :: rest.takeWhile Char.isDigit) (rest.dropWhile Char.isDigit)
    else .error (.ahead .invalidNumber (c :: rest))

/-- Passes over an exponent, after its letter. -/
def skipExponent (s : List Char) : Except Fault (List Char) :=
  let s := match s with
    | '+' :: rest => rest
    | '-' :: rest => rest
    | _ => s
  match s with
  | c :: rest =>
    if c.isDigit then .ok (rest.dropWhile Char.isDigit) else .error (.ahead .invalidNumber s)
  | [] => .error (.here .invalidNumber [])

/-- Passes over what may follow the digits of a number. -/
def skipMagnitude (s : List Char) : Except Fault (List Char) :=
  match s with
  | 'e' :: rest => skipExponent rest
  | 'E' :: rest => skipExponent rest
  | _ => .ok s

/-- Passes over what may follow the digits in front of the point. -/
def skipAfterDigits (s : List Char) : Except Fault (List Char) :=
  match s with
  | '.' :: rest =>
    if (rest.head?.any Char.isDigit) then skipMagnitude (rest.dropWhile Char.isDigit)
    else .error (.ahead .invalidNumber rest)
  | _ => skipMagnitude s

/-- Passes over a number, after its sign. -/
def skipNumber (s : List Char) : Except Fault (List Char) :=
  match s with
  | [] => .error (.here .invalidNumber [])
  | '0' :: rest =>
    if (rest.head?.any Char.isDigit) then .error (.ahead .invalidNumber rest)
    else skipAfterDigits rest
  | c :: rest =>
    if c.isDigit then skipAfterDigits (rest.dropWhile Char.isDigit)
    else .error (.ahead .invalidNumber (c :: rest))

end LineStore.Json
