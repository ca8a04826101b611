import LineStore.Json.Token

/-!
# Reading JSON

The value that a text spells. The reader keeps the arrays and objects that are not complete yet, the
innermost first, and fills them from the text piece by piece; a complete one is put into the one
around it. At most 127 may be open at a time.

It goes in steps, and each step takes at least one character. Of a name that an object binds twice,
the later binding stays.
-/

namespace LineStore.Json

namespace Reader

/-- An array or an object that is not complete. -/
inductive Frame
  /-- The items so far, last first. -/
  | array (items : List Value)
  /-- The members so far, and the name whose value comes next. -/
  | object (members : Members) (name : String)
  deriving Repr

/-- What may come next. -/
inductive Mode
  | value
  /-- An item or a member, or the end of what was just opened. -/
  | first
  /-- An item or a member, after a comma. -/
  | another
  /-- A comma, or the end of the innermost frame. -/
  | next
  deriving DecidableEq, Repr

/-- The frames, innermost first, and what may come next; or the value that was read. -/
inductive State
  | open (frames : List Frame) (mode : Mode)
  | closed (value : Value)
  deriving Repr

/-- The number of frames that are too many. -/
def depthLimit : Nat := 128

/-- Puts a complete value where it belongs. -/
def deliver (value : Value) : List Frame → State
  | [] => .closed value
  | .array items :: frames => .open (.array (value :: items) :: frames) .next
  | .object members name :: frames => .open (.object (members.insert name value) "" :: frames) .next

/-- Begins an array or an object. -/
def enter (frame : Frame) (frames : List Frame) (s rest : List Char) :
    Except Fault (State × List Char) :=
  if depthLimit ≤ frames.length + 1 then .error (.ahead .tooDeep s)
  else .ok (.open (frame :: frames) .first, rest)

/-- Begins a value, or reads it if it has no brackets. -/
def stepValue (frames : List Frame) : List Char → Except Fault (State × List Char)
  | [] => .error (.here .endInValue [])
  | c :: rest =>
    if c = 'n' then
      (readWord ['u', 'l', 'l'] rest).map fun rest => (deliver .null frames, rest)
    else if c = 't' then
      (readWord ['r', 'u', 'e'] rest).map fun rest => (deliver (.bool true) frames, rest)
    else if c = 'f' then
      (readWord ['a', 'l', 's', 'e'] rest).map fun rest => (deliver (.bool false) frames, rest)
    else if c = '-' then
      (readNumber true rest).map fun (n, rest) => (deliver (.number n) frames, rest)
    else if c.isDigit then
      (readNumber false (c :: rest)).map fun (n, rest) => (deliver (.number n) frames, rest)
    else if c = '"' then
      (readString rest).map fun (text, rest) =>
        (deliver (.string (String.ofList text)) frames, rest)
    else if c = '[' then enter (.array []) frames (c :: rest) rest
    else if c = '\x7b' then enter (.object [] "") frames (c :: rest) rest
    else .error (.ahead .expectedValue (c :: rest))

/-- Reads the name of a member and its colon, after the opening quote. -/
def stepName (members : Members) (frames : List Frame) (s : List Char) :
    Except Fault (State × List Char) :=
  match readString s with
  | .error e => .error e
  | .ok (name, rest) =>
    (readColon rest).map fun rest =>
      (.open (.object members (String.ofList name) :: frames) .value, rest)

/-- Begins the first item or member, or ends what was just opened. -/
def stepFirst (frame : Frame) (frames : List Frame) (s : List Char) :
    Except Fault (State × List Char) :=
  match frame, s with
  | .array _, [] => .error (.here .endInArray [])
  | .object _ _, [] => .error (.here .endInObject [])
  | .array items, c :: rest =>
    if c = ']' then .ok (deliver (.array items.reverse) frames, rest)
    else stepValue (.array items :: frames) (c :: rest)
  | .object members _, c :: rest =>
    if c = '\x7d' then .ok (deliver (.object members) frames, rest)
    else if c = '"' then stepName members frames rest
    else .error (.ahead .expectedName (c :: rest))

/-- Begins an item or a member after a comma. -/
def stepAnother (frame : Frame) (frames : List Frame) (s : List Char) :
    Except Fault (State × List Char) :=
  match frame, s with
  | _, [] => .error (.here .endInValue [])
  | .array items, c :: rest =>
    if c = ']' then .error (.ahead .trailingComma (c :: rest))
    else stepValue (.array items :: frames) (c :: rest)
  | .object members _, c :: rest =>
    if c = '"' then stepName members frames rest
    else if c = '\x7d' then .error (.ahead .trailingComma (c :: rest))
    else .error (.ahead .expectedName (c :: rest))

/-- Goes on after an item or a member: to the next one, or out of the frame. -/
def stepNext (frame : Frame) (frames : List Frame) (s : List Char) :
    Except Fault (State × List Char) :=
  match frame, s with
  | .array _, [] => .error (.here .endInArray [])
  | .object _ _, [] => .error (.here .endInObject [])
  | .array items, c :: rest =>
    if c = ']' then .ok (deliver (.array items.reverse) frames, rest)
    else if c = ',' then .ok (.open (frame :: frames) .another, rest)
    else .error (.ahead .expectedArrayEnd (c :: rest))
  | .object members _, c :: rest =>
    if c = '\x7d' then .ok (deliver (.object members) frames, rest)
    else if c = ',' then .ok (.open (frame :: frames) .another, rest)
    else .error (.ahead .expectedObjectEnd (c :: rest))

/-- One step, from a text without blanks in front. -/
def step (frames : List Frame) (mode : Mode) (s : List Char) : Except Fault (State × List Char) :=
  match mode, frames with
  | .first, frame :: frames => stepFirst frame frames s
  | .another, frame :: frames => stepAnother frame frames s
  | .next, frame :: frames => stepNext frame frames s
  | _, frames => stepValue frames s

/-- Steps until the value is complete; returns it with what follows. -/
def run : Nat → List Frame → Mode → List Char → Except Fault (Value × List Char)
  | 0, _, _, s => .error (.here .endInValue s)
  | limit + 1, frames, mode, s =>
    match step frames mode (skipBlanks s) with
    | .error e => .error e
    | .ok (.closed value, rest) => .ok (value, rest)
    | .ok (.open frames mode, rest) => run limit frames mode rest

end Reader

/-- The value that a text spells. -/
def read (s : List Char) : Except Fault Value :=
  match Reader.run (s.length + 1) [] .value s with
  | .error e => .error e
  | .ok (value, rest) => (expectEnd rest).map fun _ => value

end LineStore.Json
