import LineStore.Decimal.Layout
import LineStore.Json.Value

/-!
# Writing JSON

Values are written on one line without blanks, the members of an object in the order in which the
value holds them. In strings, quotes, backslashes and control characters are escaped and nothing
else is, so what is written never holds a line break.
-/

namespace LineStore.Json

/-- A character as it stands in a string. -/
def escape (c : Char) : List Char :=
  match c with
  | '"' => ['\\', '"']
  | '\\' => ['\\', '\\']
  | '\x08' => ['\\', 'b']
  | '\x0c' => ['\\', 'f']
  | '\n' => ['\\', 'n']
  | '\r' => ['\\', 'r']
  | '\t' => ['\\', 't']
  | _ => if c < ' ' then '\\' :: 'u' :: Numeral.hex 4 c.toNat else [c]

/-- A string in its quotes. -/
def writeString (s : String) : List Char := '"' :: s.toList.flatMap escape ++ ['"']

/-- A number. -/
def writeNumber : Number → List Char
  | .natural n => Numeral.write n
  | .negative n => '-' :: Numeral.write n
  | .double bits => Decimal.Layout.json.writeBits bits

mutual

/-- A value. -/
def write : Value → List Char
  | .null => ['n', 'u', 'l', 'l']
  | .bool true => ['t', 'r', 'u', 'e']
  | .bool false => ['f', 'a', 'l', 's', 'e']
  | .number n => writeNumber n
  | .string s => writeString s
  | .array [] => ['[', ']']
  | .array (item :: items) => '[' :: write item ++ writeItems items
  | .object [] => ['\x7b', '\x7d']
  | .object ((name, value) :: members) =>
    '\x7b' :: writeString name ++ ':' :: write value ++ writeMembers members

/-- The items of an array after the first, and its end. -/
def writeItems : List Value → List Char
  | [] => [']']
  | item :: items => ',' :: write item ++ writeItems items

/-- The members of an object after the first, and its end. -/
def writeMembers : List (String × Value) → List Char
  | [] => ['\x7d']
  | (name, value) :: members =>
    ',' :: writeString name ++ ':' :: write value ++ writeMembers members

end

/-- A value as text. -/
def Value.render (value : Value) : String := String.ofList (write value)

end LineStore.Json
