/-!
# JSON values

The members of an object that was read are in ascending order of their names and without repetition,
so equal objects are equal lists: `Members.insert` keeps them so. An object that is only to be
written may list its members in an order of its own.

A number is a whole number where the text allows it. Others are doubles, kept by their bits: two of
them are equal exactly when they print the same.
-/

namespace LineStore.Json

/-- A number. -/
inductive Number
  | natural (n : Nat)
  /-- `-n`, for positive `n`. -/
  | negative (n : Nat)
  | double (bits : UInt64)
  deriving DecidableEq, Repr

/-- A JSON value. -/
inductive Value
  | null
  | bool (b : Bool)
  | number (n : Number)
  | string (s : String)
  | array (items : List Value)
  | object (members : List (String × Value))
  deriving Repr, Inhabited

/-- The members of an object. -/
abbrev Members := List (String × Value)

namespace Members

/-- The members with `name` bound to `value`, in place of what it was bound to. -/
def insert (name : String) (value : Value) : Members → Members
  | [] => [(name, value)]
  | (n, v) :: rest =>
    if name < n then (name, value) :: (n, v) :: rest
    else if name = n then (name, value) :: rest
    else (n, v) :: insert name value rest

/-- The members of a list in which a later binding of a name wins. -/
def ofList (bindings : List (String × Value)) : Members :=
  bindings.foldl (fun members (name, value) => insert name value members) []

end Members

namespace Value

def natural (n : Nat) : Value := .number (.natural n)

/-- The member of an object with a name. -/
def get? (name : String) : Value → Option Value
  | object members => members.lookup name
  | _ => none

end Value
end LineStore.Json
