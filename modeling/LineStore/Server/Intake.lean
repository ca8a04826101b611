import LineStore.Protocol.Command
import LineStore.Protocol.Reply
import LineStore.Text.Line

/-!
# Taking requests off a connection

A request is a line and, if its command says so, a body of that many bytes. `Intake.next` looks at
the bytes that have come in and are not used yet, and says what they begin with; the bytes after it
are the next request's. A last line may lack its line break if no more bytes can come, and is a
request all the same.

Past a line or a body that is too long nobody can tell where the next request starts, so the
connection ends there. A body that is not text is the request's own trouble: it is refused, and the
next request follows it.
-/

namespace LineStore

/-- How long requests may be. -/
structure Limits where
  /-- The longest line in bytes, its end included. -/
  line : Nat
  /-- The longest body in bytes. -/
  body : Nat
  deriving DecidableEq, Repr

/-- What the bytes of a connection begin with. -/
inductive Intake
  /-- Nothing that is complete; more bytes may come. -/
  | wait
  /-- Nothing, and nothing more can come of them. -/
  | stop
  /-- Something after which the connection ends, with this reply. -/
  | hangUp (reply : Reply)
  /-- A request that is refused unread, with this reply. -/
  | refuse (reply : Reply) (rest : Bytes)
  | request (command : Command) (body : Option String) (rest : Bytes)
  deriving DecidableEq, Repr

namespace Intake

def lineTooLong : Reply := .ofFailure Code.badRequest "Command too long"

def bodyTooLong (limit : Nat) : Reply :=
  .ofFailure Code.payloadTooLarge
    ("Body exceeds " ++ String.ofList (Numeral.write limit) ++ " bytes")

def bodyNotText : Reply := .ofFailure Code.badRequest "Body must be UTF-8 text"

/-- The first line and what follows it. If no more bytes can come, what is there is a line. -/
def takeLine? (ended : Bool) (input : Bytes) : Option (Bytes × Bytes) :=
  match Text.splitLine? input with
  | some split => some split
  | none => if ended && !input.isEmpty then some (input, []) else none

/-- Goes on after the line of a command: `input` are the bytes behind it. -/
def withBody (limits : Limits) (ended : Bool) (command : Command) (input : Bytes) : Intake :=
  match command.bodyLength? with
  | none => .request command none input
  | some length =>
    -- The limit counts before a byte of the body is there.
    if limits.body < length then .hangUp (bodyTooLong limits.body)
    else if input.length < length then if ended then .stop else .wait
    else
      match Utf8.decode? (input.take length) with
      | some body => .request command (some body) (input.drop length)
      | none => .refuse bodyNotText (input.drop length)

/-- What the bytes begin with; `ended` says that no more can come. -/
def next (limits : Limits) (ended : Bool) (input : Bytes) : Intake :=
  match takeLine? ended input with
  | none => if ended then .stop else .wait
  | some (line, rest) =>
    match Utf8.decode? line with
    -- A line that is no text gets no reply, however long it is.
    | none => .stop
    | some text =>
      if limits.line < line.length then .hangUp lineTooLong
      else withBody limits ended (.parse text.toList) rest

end Intake
end LineStore
