import LineStore.Json.Token

/-!
# Checking a JSON text

Whether a text is one JSON value, without building it. The check keeps the brackets that are open
and nothing else, so it has no limit on depth or on the size of numbers; half a surrogate pair
passes.

It goes in steps, and each step takes at least one character.
-/

namespace LineStore.Json

/-- The kinds of bracket. -/
inductive Bracket
  | array
  | object
  deriving DecidableEq, Repr

namespace Check

/-- What may come next. -/
inductive Mode
  | value
  /-- A member, or the end of the bracket just opened. -/
  | first
  /-- The name of a member. -/
  | name
  /-- A comma, or the end of the innermost bracket. -/
  | next
  deriving DecidableEq, Repr

/-- The open brackets, innermost first, and what may come next. -/
structure State where
  opened : List Bracket
  mode : Mode
  deriving DecidableEq, Repr

def endsIn : Bracket → Cause
  | .array => .endInArray
  | .object => .endInObject

def closer : Bracket → Char
  | .array => ']'
  | .object => '\x7d'

/-- Begins a value, or passes over it if it has no brackets. -/
def stepValue (opened : List Bracket) : List Char → Except Fault (State × List Char)
  | [] => .error (.here .endInValue [])
  | c :: rest =>
    let passed := fun rest => (State.mk opened .next, rest)
    if c = 'n' then (readWord ['u', 'l', 'l'] rest).map passed
    else if c = 't' then (readWord ['r', 'u', 'e'] rest).map passed
    else if c = 'f' then (readWord ['a', 'l', 's', 'e'] rest).map passed
    else if c = '-' then (skipNumber rest).map passed
    else if c.isDigit then (skipNumber (c :: rest)).map passed
    else if c = '"' then (skipString rest).map passed
    else if c = '[' then .ok (⟨.array :: opened, .first⟩, rest)
    else if c = '\x7b' then .ok (⟨.object :: opened, .first⟩, rest)
    else .error (.ahead .expectedValue (c :: rest))

/-- Passes over the name of a member and its colon. -/
def stepName (opened : List Bracket) : List Char → Except Fault (State × List Char)
  | [] => .error (.here .endInObject [])
  | c :: rest =>
    if c = '"' then
      match skipString rest with
      | .error e => .error e
      | .ok rest => (readColon rest).map fun rest => (⟨opened, .value⟩, rest)
    else .error (.ahead .expectedName (c :: rest))

/-- Begins a member of the bracket `b`. -/
def stepMember (b : Bracket) (opened : List Bracket) (s : List Char) :
    Except Fault (State × List Char) :=
  match b with
  | .array => stepValue (b :: opened) s
  | .object => stepName (b :: opened) s

/-- Goes on after a member: to the next one, or out of the bracket. -/
def stepNext (b : Bracket) (opened : List Bracket) : List Char → Except Fault (State × List Char)
  | [] => .error (.here (endsIn b) [])
  | c :: rest =>
    if c = closer b then .ok (⟨opened, .next⟩, rest)
    else if c = ',' then
      .ok (⟨b :: opened, match b with | .array => .value | .object => .name⟩, rest)
    else
      .error (.ahead (match b with | .array => .expectedArrayEnd | .object => .expectedObjectEnd)
        (c :: rest))

/-- One step, from a text without blanks in front. -/
def step (state : State) (s : List Char) : Except Fault (State × List Char) :=
  match state.mode, state.opened with
  | .first, b :: opened =>
    match s with
    | [] => .error (.here (endsIn b) [])
    | c :: rest =>
      if c = closer b then .ok (⟨opened, .next⟩, rest) else stepMember b opened (c :: rest)
  | .next, b :: opened => stepNext b opened s
  | .name, opened => stepName opened s
  | _, opened => stepValue opened s

/-- Steps until the value ends; returns what follows it. -/
def run : Nat → State → List Char → Except Fault (List Char)
  | 0, _, s => .error (.here .endInValue s)
  | limit + 1, state, s =>
    if state.mode = .next ∧ state.opened = [] then .ok s
    else
      match step state (skipBlanks s) with
      | .error e => .error e
      | .ok (state, rest) => run limit state rest

end Check

/-- Passes over a value. -/
def skipValue (s : List Char) : Except Fault (List Char) :=
  Check.run (s.length + 2) ⟨[], .value⟩ s

/-- Whether a text is one JSON value. -/
def check (s : List Char) : Except Fault Unit :=
  match skipValue s with
  | .error e => .error e
  | .ok rest => expectEnd rest

end LineStore.Json
