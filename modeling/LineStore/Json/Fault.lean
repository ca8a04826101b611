import LineStore.Decimal.Layout
import LineStore.Text.Quoted
import LineStore.Text.Utf8

/-!
# What is wrong with a JSON text

A fault is a cause and a place. The place is kept as the number of bytes still unread, because that
is what a reader knows when it stops; against the whole text it becomes a line and a column. Columns
count bytes, and the first byte of a line is in column one.
-/

namespace LineStore.Json

/-- What was met where something else was wanted. -/
inductive Found
  | null
  | bool (b : Bool)
  | integer (n : Int)
  | double (bits : UInt64)
  | string (s : List Char)
  | array
  | object
  deriving DecidableEq, Repr

/-- Why a JSON text is refused. -/
inductive Cause
  | endInArray
  | endInObject
  | endInString
  | endInValue
  | expectedColon
  | expectedArrayEnd
  | expectedObjectEnd
  | expectedWord
  | expectedValue
  | expectedName
  | invalidEscape
  | invalidNumber
  | numberOutOfRange
  | controlCharacter
  /-- Half of a surrogate pair. -/
  | loneSurrogate
  /-- The first half of a surrogate pair, and then no second escape. -/
  | brokenPair
  | trailingComma
  | trailingCharacters
  | tooDeep
  /-- A value of the wrong kind. -/
  | wrongKind (found : Found) (expected : String)
  /-- A value of the right kind that does not fit. -/
  | wrongValue (found : Found) (expected : String)
  | missingMember (name : String)
  | repeatedMember (name : String)
  | wrongLength (length : Nat) (expected : String)
  deriving DecidableEq, Repr

/-- A cause, and how many bytes were unread when it was met. -/
structure Fault where
  cause : Cause
  left : Nat
  deriving DecidableEq, Repr

namespace Found

/-- How a message names what was met. -/
def describe : Found → String
  | null => "null"
  | bool true => "boolean `true`"
  | bool false => "boolean `false`"
  | integer n => "integer `" ++ String.ofList (Numeral.writeSigned n) ++ "`"
  | double bits => "floating point `" ++ String.ofList (Decimal.Layout.json.writeBits bits) ++ "`"
  | string s => "string " ++ String.ofList (Text.quote s)
  | array => "sequence"
  | object => "map"

end Found

namespace Cause

/-- The wording, without the place. -/
def describe : Cause → String
  | endInArray => "EOF while parsing a list"
  | endInObject => "EOF while parsing an object"
  | endInString => "EOF while parsing a string"
  | endInValue => "EOF while parsing a value"
  | expectedColon => "expected `:`"
  | expectedArrayEnd => "expected `,` or `]`"
  | expectedObjectEnd => "expected `,` or `\x7d`"
  | expectedWord => "expected ident"
  | expectedValue => "expected value"
  | expectedName => "key must be a string"
  | invalidEscape => "invalid escape"
  | invalidNumber => "invalid number"
  | numberOutOfRange => "number out of range"
  | controlCharacter => "control character (\\u0000-\\u001F) found while parsing a string"
  | loneSurrogate => "lone leading surrogate in hex escape"
  | brokenPair => "unexpected end of hex escape"
  | trailingComma => "trailing comma"
  | trailingCharacters => "trailing characters"
  | tooDeep => "recursion limit exceeded"
  | wrongKind found expected => "invalid type: " ++ found.describe ++ ", expected " ++ expected
  | wrongValue found expected => "invalid value: " ++ found.describe ++ ", expected " ++ expected
  | missingMember name => "missing field `" ++ name ++ "`"
  | repeatedMember name => "duplicate field `" ++ name ++ "`"
  | wrongLength length expected =>
    "invalid length " ++ String.ofList (Numeral.write length) ++ ", expected " ++ expected

end Cause

namespace Fault

def newline : UInt8 := 0x0A

/-- The line and the column after some bytes. -/
def place (read : Bytes) : Nat × Nat :=
  read.foldl (fun seen b => if b = newline then (seen.1 + 1, 0) else (seen.1, seen.2 + 1)) (1, 0)

/-- The wording, with the place in the text. -/
def message (text : String) (fault : Fault) : String :=
  let bytes := Utf8.encode text
  let (line, column) := place (bytes.take (bytes.length - fault.left))
  fault.cause.describe ++ " at line " ++ String.ofList (Numeral.write line) ++ " column " ++
    String.ofList (Numeral.write column)

end Fault
end LineStore.Json
