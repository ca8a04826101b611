import LineStore.Decimal.Double
import LineStore.Decimal.Layout
import LineStore.Text.Quoted

/-!
# Settings before they are fields

A configuration is put together from sources that know nothing of its fields. What a source says
under a name is a `Setting`: a scalar, a list, or a table. No field is a list or a table, but what a
source says may reach into one. Scalars and lists remember the source they came from; a table has
been put together from several and comes from none.

Fields are numbers or texts, and take more than that. A number may be written as a text, a truth
value counts as one or zero, and a fraction is rounded; a text may be given as a number or a truth
value.
-/

namespace LineStore.Config

/-- The bound of whole numbers. -/
def integerBound : Nat := 0x8000000000000000

/-- A single value. -/
inductive Scalar
  | nothing
  | boolean (b : Bool)
  | integer (n : Int)
  | float (bits : UInt64)
  | text (s : String)
  deriving DecidableEq, Repr

/-- What a source says under a name. -/
inductive Setting
  | scalar (origin : Option String) (s : Scalar)
  /-- A list of some length. A place that no item has holds nothing. -/
  | list (origin : Option String) (length : Nat) (items : List (Nat × Setting))
  | table (members : List (String × Setting))
  deriving Repr

/-- A setting that its field cannot take. -/
structure TypeFault where
  /-- What was found. -/
  found : String
  expected : String
  /-- The source it was found in. -/
  origin : Option String
  deriving DecidableEq, Repr

namespace TypeFault

/-- The wording, for the field with a name. -/
def message (fault : TypeFault) (field : String) : String :=
  "invalid type: " ++ fault.found ++ ", expected " ++ fault.expected ++
    " for key `" ++ field ++ "`" ++
    match fault.origin with
    | some origin => " in " ++ origin
    | none => ""

end TypeFault

namespace Setting

/-- The words for one and for zero. -/
def truth? (s : List Char) : Option Nat :=
  if s = "true".toList ∨ s = "on".toList ∨ s = "yes".toList then some 1
  else if s = "false".toList ∨ s = "off".toList ∨ s = "no".toList then some 0
  else none

/-- The number that a text stands for. -/
def numberOf? (s : String) : Option Nat :=
  match truth? (s.toList.map Char.toLower) with
  | some n => some n
  | none => Numeral.read? Decimal.wordBound s.toList

/-- The setting as a number that fits a word. -/
def toNumber (setting : Setting) : Except TypeFault Nat :=
  match setting with
  | .scalar origin .nothing => .error ⟨"unit value", "an integer", origin⟩
  | .scalar _ (.boolean b) => .ok b.toNat
  | .scalar origin (.integer n) =>
    if n < 0 then
      .error ⟨"integer 64 bit `" ++ String.ofList (Numeral.writeSigned n) ++ "`",
        "an unsigned 64 bit or less integer", origin⟩
    else .ok n.toNat
  | .scalar _ (.float bits) => .ok (Decimal.toWord bits)
  | .scalar origin (.text s) =>
    match numberOf? s with
    | some n => .ok n
    | none => .error ⟨"string " ++ String.ofList (Text.quote s.toList), "an integer", origin⟩
  | .list origin _ _ => .error ⟨"sequence", "an integer", origin⟩
  | .table _ => .error ⟨"map", "an integer", none⟩

/-- The setting as a text. -/
def toText (setting : Setting) : Except TypeFault String :=
  match setting with
  | .scalar origin .nothing => .error ⟨"unit value", "a string", origin⟩
  | .scalar _ (.boolean b) => .ok (if b then "true" else "false")
  | .scalar _ (.integer n) => .ok (String.ofList (Numeral.writeSigned n))
  | .scalar _ (.float bits) => .ok (String.ofList (Decimal.Layout.plain.writeBits bits))
  | .scalar _ (.text s) => .ok s
  | .list origin _ _ => .error ⟨"sequence", "a string", origin⟩
  | .table _ => .error ⟨"map", "a string", none⟩

end Setting
end LineStore.Config
