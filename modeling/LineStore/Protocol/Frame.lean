import LineStore.Protocol.Reply
import LineStore.Text.Cut
import LineStore.Text.Line

/-!
# Frames

The other end of a connection: what a client makes of the bytes it is sent. They come in frames. A
frame is a line, and if the line announces a payload, the bytes of that too. A line that starts with
the word for events is no reply to anything and stands for itself.

`readAll` takes whole frames off the front for as long as there are any and leaves the rest. What a
reply and an event should read as is `ofReply` and `ofEvent`.
-/

namespace LineStore

/-- What a client reads in one go. -/
inductive Frame
  | message (code : Nat) (text : String)
  | payload (code : Nat) (text : String)
  | event (topic body : String)
  deriving DecidableEq, Repr

/-- What one line off the wire says. -/
inductive FrameLine
  | message (code : Nat) (text : String)
  /-- A payload of this many bytes follows. -/
  | header (code size : Nat)
  | event (topic body : String)
  deriving DecidableEq, Repr

namespace FrameLine

/-- The size that the text behind a code announces, if it announces a payload. -/
def payloadSize? (text : List Char) : Option Nat :=
  match Text.cut? ' ' text with
  | some (word, size) => if word = Wire.payloadWord then Numeral.digits? size else none
  | none => none

/-- What the text behind a code says. -/
def ofCode (code : Nat) (text : List Char) : FrameLine :=
  match payloadSize? text with
  | some size => .header code size
  | none => .message code (String.ofList text)

/-- Reads a line, its end apart. -/
def ofText? (line : List Char) : Option FrameLine := do
  let (word, text) ← Text.cut? ' ' line
  if word = Wire.eventWord then
    let (topic, body) ← Text.cut? ' ' text
    return .event (String.ofList topic) (String.ofList body)
  else
    let code ← Numeral.digits? word
    return ofCode code text

end FrameLine

namespace Frame

/-- What a reply reads as. -/
def ofReply (r : Reply) : Frame :=
  match r.payload with
  | some body => .payload r.code body
  | none => .message r.code r.message

/-- What an event reads as. -/
def ofEvent (e : Event) : Frame := .event e.topic (String.ofList (Json.write e.payload))

/-- The frame that a line begins and the bytes after it; `input` are the bytes after the line. -/
def ofLine? (input : Bytes) : FrameLine → Option (Frame × Bytes)
  | .message code text => some (.message code text, input)
  | .event topic body => some (.event topic body, input)
  | .header code size =>
    if input.length < size then none
    else (Utf8.decode? (input.take size)).map fun text => (.payload code text, input.drop size)

/-- The first frame and the bytes after it; nothing if the bytes do not begin with a whole one. -/
def next? (input : Bytes) : Option (Frame × Bytes) := do
  let (line, rest) ← Text.splitLine? input
  let text ← Utf8.decode? line
  let content ← Text.stem? Wire.lineEnd text.toList
  let said ← FrameLine.ofText? content
  ofLine? rest said

theorem length_of_ofLine? {input rest : Bytes} {said : FrameLine} {frame : Frame}
    (h : ofLine? input said = some (frame, rest)) : rest.length ≤ input.length := by
  cases said with
  | message code text => simp_all [ofLine?]
  | event topic body => simp_all [ofLine?]
  | header code size =>
    simp only [ofLine?] at h
    split at h
    · simp at h
    · simp only [Option.map_eq_some_iff, Prod.mk.injEq] at h
      obtain ⟨text, -, -, rfl⟩ := h
      simp

/-- A frame has at least one byte. -/
theorem length_of_next? {input rest : Bytes} {frame : Frame}
    (h : next? input = some (frame, rest)) : rest.length < input.length := by
  simp only [next?, Option.bind_eq_bind, Option.bind_eq_some_iff, Prod.exists] at h
  obtain ⟨line, behind, hs, text, -, content, -, said, -, ho⟩ := h
  have := Text.length_of_splitLine? hs
  have := length_of_ofLine? ho
  omega

/-- The frames that the bytes begin with, and the bytes after them. -/
def readAll (input : Bytes) : List Frame × Bytes :=
  match h : next? input with
  | none => ([], input)
  | some (frame, rest) =>
    have := length_of_next? h
    let (frames, left) := readAll rest
    (frame :: frames, left)
termination_by input.length

theorem readAll_of_none {input : Bytes} (h : next? input = none) : readAll input = ([], input) := by
  rw [readAll]
  split <;> simp_all

theorem readAll_of_some {input rest : Bytes} {frame : Frame}
    (h : next? input = some (frame, rest)) :
    readAll input = (frame :: (readAll rest).1, (readAll rest).2) := by
  rw [readAll]
  split <;> simp_all

end Frame
end LineStore
