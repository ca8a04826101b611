/-!
# TOML values

Dates and times are kept as the text in which they are shown. They are checked when they are read
and nothing here computes with them.
-/

namespace LineStore.Toml

/-- A TOML value. -/
inductive Value
  | string (s : String)
  | integer (n : Int)
  | float (bits : UInt64)
  | boolean (b : Bool)
  | moment (text : String)
  | array (items : List Value)
  | table (members : List (String × Value))
  deriving Repr, Inhabited

end LineStore.Toml
