import LineStore.Json.Check
import LineStore.Json.Printer

/-!
# Announcements of changed settings

When a setting is saved, everyone who listens is told who saved it, which one it is and when. An
announcement has two written forms with the same four members: `render` lists them in the order in
which they are thought of, `toValue` in the order of their names.

`read` accepts both, and more: members in any order, members it does not know, which are passed
over, and an array of the four values alone.
-/

namespace LineStore

open Json

/-- Word that a setting was saved. -/
structure Announcement where
  /-- Who saved it. -/
  client : String
  key : String
  level : String
  /-- When, in milliseconds since the epoch. -/
  timestamp : Nat
  deriving DecidableEq, Repr

namespace Announcement

def clientName : String := "originatingClientId"
def keyName : String := "key"
def levelName : String := "level"
def timestampName : String := "timestampMillis"

/-- The announcement as a JSON value. -/
def toValue (a : Announcement) : Value :=
  .object [(keyName, .string a.key), (levelName, .string a.level),
    (clientName, .string a.client), (timestampName, .natural a.timestamp)]

/-- The announcement as JSON text, its members in the order of the fields. -/
def render (a : Announcement) : String :=
  Value.render (.object [(clientName, .string a.client), (keyName, .string a.key),
    (levelName, .string a.level), (timestampName, .natural a.timestamp)])

/-! ## Reading -/

/-- The fault of a text that begins with a value of the wrong kind, or with none. -/
def wrongKind (expected : String) : List Char → Fault
  | [] => .ahead .expectedValue []
  | c :: rest =>
    let ofWord := fun word found =>
      match readWord word rest with
      | .error e => e
      | .ok rest => Fault.here (.wrongKind found expected) rest
    let ofNumber := fun negative s =>
      match readNumber negative s with
      | .error e => e
      | .ok (.natural n, rest) => Fault.here (.wrongKind (.integer n) expected) rest
      | .ok (.negative n, rest) => Fault.here (.wrongKind (.integer (-n)) expected) rest
      | .ok (.double bits, rest) => Fault.here (.wrongKind (.double bits) expected) rest
    if c = 'n' then ofWord ['u', 'l', 'l'] .null
    else if c = 't' then ofWord ['r', 'u', 'e'] (.bool true)
    else if c = 'f' then ofWord ['a', 'l', 's', 'e'] (.bool false)
    else if c = '-' then ofNumber true rest
    else if c.isDigit then ofNumber false (c :: rest)
    else if c = '"' then
      match readString rest with
      | .error e => e
      | .ok (s, rest) => .here (.wrongKind (.string s) expected) rest
    else if c = '[' then .here (.wrongKind .array expected) (c :: rest)
    else if c = '\x7b' then .here (.wrongKind .object expected) (c :: rest)
    else .ahead .expectedValue (c :: rest)

/-- A string value. -/
def readText (s : List Char) : Except Fault (String × List Char) :=
  match skipBlanks s with
  | [] => .error (.here .endInValue [])
  | c :: rest =>
    if c = '"' then (readString rest).map fun (text, rest) => (String.ofList text, rest)
    else .error (wrongKind "a string" (c :: rest))

/-- A whole number from zero up, below the limit of a word. -/
def readWhole (s : List Char) : Except Fault (Nat × List Char) :=
  match skipBlanks s with
  | [] => .error (.here .endInValue [])
  | c :: rest =>
    let result := if c = '-' then some (readNumber true rest)
      else if c.isDigit then some (readNumber false (c :: rest)) else none
    match result with
    | none => .error (wrongKind "u64" (c :: rest))
    | some (.error e) => .error e
    | some (.ok (.natural n, rest)) => .ok (n, rest)
    | some (.ok (.negative n, rest)) => .error (.here (.wrongValue (.integer (-n)) "u64") rest)
    | some (.ok (.double bits, rest)) => .error (.here (.wrongKind (.double bits) "u64") rest)

/-- How a message names an announcement. -/
def shape : String := "struct ChangeNotification"

/-- Goes to the item number `i` of an array; after the opening bracket, `i` items were read. -/
def nextItem (i : Nat) (s : List Char) : Except Fault (List Char) :=
  match skipBlanks s with
  | [] => .error (.here .endInArray [])
  | c :: rest =>
    if c = ']' then .error (.here (.wrongLength i (shape ++ " with 4 elements")) rest)
    else if i = 0 then .ok (c :: rest)
    else if c = ',' then
      match skipBlanks rest with
      | [] => .error (.here .endInValue [])
      | d :: rest =>
        if d = ']' then .error (.ahead .trailingComma (d :: rest)) else .ok (d :: rest)
    else .error (.ahead .expectedArrayEnd (c :: rest))

/-- The end of an array after its last item. -/
def endArray (s : List Char) : Except Fault (List Char) :=
  match skipBlanks s with
  | [] => .error (.here .endInArray [])
  | c :: rest =>
    if c = ']' then .ok rest
    else if c = ',' then
      let rest := skipBlanks rest
      if rest.head? = some ']' then .error (.ahead .trailingComma rest)
      else .error (.ahead .trailingCharacters rest)
    else .error (.ahead .trailingCharacters (c :: rest))

/-- An announcement as an array, after the opening bracket. -/
def readArray (s : List Char) : Except Fault (Announcement × List Char) := do
  let (client, s) ← readText (← nextItem 0 s)
  let (key, s) ← readText (← nextItem 1 s)
  let (level, s) ← readText (← nextItem 2 s)
  let (timestamp, s) ← readWhole (← nextItem 3 s)
  return (⟨client, key, level, timestamp⟩, ← endArray s)

/-- The members met so far. -/
structure Draft where
  client : Option String := none
  key : Option String := none
  level : Option String := none
  timestamp : Option Nat := none
  deriving DecidableEq, Repr

/-- The announcement, if all members were met. -/
def Draft.complete (d : Draft) : Except Cause Announcement := do
  let get := fun {α : Type} (name : String) (member : Option α) =>
    (match member with
    | some a => .ok a
    | none => .error (.missingMember name) : Except Cause α)
  return ⟨← get clientName d.client, ← get keyName d.key, ← get levelName d.level,
    ← get timestampName d.timestamp⟩

/-- What follows a brace, if one comes next. -/
def passBrace (s : List Char) : List Char :=
  let s := skipBlanks s
  if s.head? = some '\x7d' then s.tail else s

/-- The member called `name`, after that name. -/
def readMember (d : Draft) (name : String) (s : List Char) : Except Fault (Draft × List Char) :=
  let repeated := Fault.here (.repeatedMember name) (passBrace s)
  if name = clientName then
    if d.client.isSome then .error repeated
    else do
      let (client, s) ← readText (← readColon s)
      return ({ d with client := some client }, s)
  else if name = keyName then
    if d.key.isSome then .error repeated
    else do
      let (key, s) ← readText (← readColon s)
      return ({ d with key := some key }, s)
  else if name = levelName then
    if d.level.isSome then .error repeated
    else do
      let (level, s) ← readText (← readColon s)
      return ({ d with level := some level }, s)
  else if name = timestampName then
    if d.timestamp.isSome then .error repeated
    else do
      let (timestamp, s) ← readWhole (← readColon s)
      return ({ d with timestamp := some timestamp }, s)
  else do
    let s ← skipValue (← readColon s)
    return (d, s)

/-- The text from the next name on, after its quote; nothing at the end of the object. -/
def nextName (first : Bool) (s : List Char) : Except Fault (Option (List Char)) :=
  match skipBlanks s with
  | [] => .error (.here .endInObject [])
  | c :: rest =>
    if c = '\x7d' then .ok none
    else if first then
      if c = '"' then .ok (some rest) else .error (.ahead .expectedName (c :: rest))
    else if c = ',' then
      match skipBlanks rest with
      | [] => .error (.here .endInValue [])
      | d :: rest =>
        if d = '"' then .ok (some rest)
        else if d = '\x7d' then .error (.ahead .trailingComma (d :: rest))
        else .error (.ahead .expectedName (d :: rest))
    else .error (.ahead .expectedObjectEnd (c :: rest))

/-- The members of an object, at most `limit` of them, and its end. -/
def readMembers : Nat → Draft → Bool → List Char → Except Fault (Announcement × List Char)
  | 0, _, _, s => .error (.here .endInObject s)
  | limit + 1, d, first, s =>
    match nextName first s with
    | .error e => .error e
    | .ok none =>
      match d.complete with
      | .ok a => .ok (a, passBrace s)
      | .error cause => .error (.here cause (passBrace s))
    | .ok (some s) =>
      match readString s with
      | .error e => .error e
      | .ok (name, s) =>
        match readMember d (String.ofList name) s with
        | .error e => .error e
        | .ok (d, s) => readMembers limit d false s

/-- The announcement that a text spells. -/
def read (s : List Char) : Except Fault Announcement :=
  let result : Except Fault (Announcement × List Char) := match skipBlanks s with
    | [] => .error (.here .endInValue [])
    | c :: rest =>
      if c = '[' then readArray rest
      else if c = '\x7b' then readMembers (rest.length + 1) {} true rest
      else .error (wrongKind shape (c :: rest))
  match result with
  | .error e => .error e
  | .ok (a, rest) => (expectEnd rest).map fun _ => a

end Announcement
end LineStore
