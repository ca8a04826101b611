import LineStore.Config.Setting

/-!
# Settings from the environment

The variables that start with `RAX_DOCS_`, in any case, are settings under the rest of their names
in small letters. A variable is a text, and is taken for more where it reads as more: first for a
truth value, then for a whole number, then for a number of any kind.
-/

namespace LineStore.Config

/-- What the names of the variables start with, in small letters. -/
def variableStart : List Char := "rax_docs_".toList

/-- How a message names the environment. -/
def environmentOrigin : String := "the environment"

/-- A decimal with at least one digit and maybe an exponent: its digits, without the point, and the
power of ten they are to be multiplied by. -/
def decimal? (s : List Char) : Option (Nat × Int) :=
  let whole := s.takeWhile Char.isDigit
  let rest := s.dropWhile Char.isDigit
  let (fraction, rest) := match rest with
    | '.' :: rest => (rest.takeWhile Char.isDigit, rest.dropWhile Char.isDigit)
    | _ => ([], rest)
  let digits := whole ++ fraction
  if digits = [] then none
  else
    let n := Nat.ofDigitChars 10 digits 0
    match rest with
    | [] => some (n, -(fraction.length : Int))
    | c :: rest =>
      if c ≠ 'e' ∧ c ≠ 'E' then none
      else
        let (negative, rest) := match rest with
          | '-' :: rest => (true, rest)
          | '+' :: rest => (false, rest)
          | _ => (false, rest)
        (Numeral.digits? rest).map fun e =>
          (n, (if negative then -(e : Int) else e) - fraction.length)

/-- The double that a text stands for. -/
def double? (s : List Char) : Option UInt64 :=
  let (negative, body) := match s with
    | '-' :: rest => (true, rest)
    | '+' :: rest => (false, rest)
    | _ => (false, s)
  let word := body.map Char.toLower
  if word = "inf".toList ∨ word = "infinity".toList then some (Decimal.infinityBits negative)
  else if word = "nan".toList then some Decimal.nanBits
  else (decimal? body).map fun (n, e) => Decimal.fromDecimal negative n e

/-- What the text of a variable is taken for. -/
def Scalar.ofVariable (value : String) : Scalar :=
  let s := value.toList
  let small := s.map Char.toLower
  if small = "true".toList then .boolean true
  else if small = "false".toList then .boolean false
  else
    match Numeral.readSigned? integerBound s with
    | some n => .integer n
    | none =>
      match double? s with
      | some bits => .float bits
      | none => .text value

/-- The small letter for a capital one. Besides the capital letters of ASCII, the Kelvin sign is the
one character whose small letter may stand in the name of a setting, or on a path to it. -/
def smallLetter (c : Char) : Char := if c = '\u212a' then 'k' else c.toLower

/-- The name of the setting that the variable called `name` is, if it is one. -/
def settingName? (name : String) : Option String :=
  let s := name.toList.map smallLetter
  if variableStart.isPrefixOf s then some (String.ofList (s.drop variableStart.length)) else none

/-- What the environment says. -/
def fromEnvironment (environment : List (String × String)) : List (String × Setting) :=
  environment.filterMap fun (name, value) =>
    (settingName? name).map fun setting =>
      (setting, .scalar (some environmentOrigin) (.ofVariable value))

end LineStore.Config
