import LineStore.Toml.Moment
import LineStore.Toml.Value

/-!
# TOML values before they are checked

Reading a document and judging it are two things. A `Draft` is a value as it was read: its moments
may be no moments, and its tables may bind a name twice. Only dotted keys are judged at once, since
they have to find the table that they go on with.

A table may stand for a moment. It does so if its first name is `Moment.name`, and then it is the
moment whose text that name is bound to. What else such a table binds is passed over, unchecked.
-/

namespace LineStore.Toml

/-- The name that comes first in a table that stands for a moment. -/
def Moment.name : String := "$__toml_private_datetime"

/-- A value as it was read. -/
inductive Draft
  | string (s : String)
  | integer (n : Int)
  | float (bits : UInt64)
  | boolean (b : Bool)
  | moment (text : List Char)
  | array (items : List Draft)
  /-- A table; `dotted` if dotted keys made it and may go on with it. -/
  | table (dotted : Bool) (members : List (String × Draft))

/-- Names and what they are bound to, in the order in which they were read. -/
abbrev Drafts := List (String × Draft)

/-! ## Binding -/

/-- The names with the first binding of one of them changed. -/
def rebind {α : Type} (name : String) (item : α) : List (String × α) → List (String × α)
  | [] => []
  | (n, i) :: rest => if n = name then (n, item) :: rest else (n, i) :: rebind name item rest

/-- The names with a dotted key bound to a draft. A key without dots is bound as it is, even if the
name is bound already. -/
def Drafts.bind? (members : Drafts) (part : String) (parts : List String) (draft : Draft) :
    Option Drafts :=
  match parts with
  | [] => some (members ++ [(part, draft)])
  | next :: parts =>
    match members.lookup part with
    | none =>
      (Drafts.bind? [] next parts draft).map fun inner => members ++ [(part, .table true inner)]
    | some (.table true inner) =>
      (Drafts.bind? inner next parts draft).map fun inner =>
        rebind part (.table true inner) members
    | some _ => none

/-! ## Checking -/

/-- The moment that a draft gives the text of. -/
def Draft.namedMoment? : Draft → Option Value
  | .string s => (Moment.normal? s.toList).map .moment
  | _ => none

mutual

/-- The value that a draft is, if it is one. -/
def Draft.value? : Draft → Option Value
  | .string s => some (.string s)
  | .integer n => some (.integer n)
  | .float bits => some (.float bits)
  | .boolean b => some (.boolean b)
  | .moment text => (Moment.normal? text).map .moment
  | .array items => (Draft.values? items).map .array
  | .table _ [] => some (.table [])
  | .table _ ((name, draft) :: rest) =>
    if name = Moment.name then draft.namedMoment?
    else if (name :: rest.map (·.1)).Nodup then
      (Drafts.members? ((name, draft) :: rest)).map .table
    else none

/-- The values that drafts are. -/
def Draft.values? : List Draft → Option (List Value)
  | [] => some []
  | draft :: rest => do
    let value ← draft.value?
    return value :: (← Draft.values? rest)

/-- Names with the values that the drafts are. -/
def Drafts.members? : Drafts → Option (List (String × Value))
  | [] => some []
  | (name, draft) :: rest => do
    let value ← draft.value?
    return (name, value) :: (← Drafts.members? rest)

end

end LineStore.Toml
