import LineStore.Events.Sink
import LineStore.Text.Utf8

/-!
# Replies

Every request gets one reply: a code with a line of text, or a code with a payload. What goes over
the wire is one line in the first case, and in the second a line that announces the number of bytes
and then exactly these. Events go out between replies, a line each.
-/

namespace LineStore

/-- What a connection does after a reply. -/
inductive Status
  | success
  | failure (reason : String)
  /-- The client asked for events. -/
  | subscribe
  | close
  deriving DecidableEq, Repr

namespace Code

def ok : Nat := 200
def noContent : Nat := 204
def welcome : Nat := 220
def goodbye : Nat := 221
def badRequest : Nat := 400
def payloadTooLarge : Nat := 413
def tooManyConnections : Nat := 421
def unknownCommand : Nat := 502

end Code

/-! ## Wire forms -/

namespace Wire

/-- What ends a line. -/
def lineEnd : List Char := ['\r', '\n']

/-- A reply of one line. -/
def line (code : Nat) (text : String) : String :=
  String.ofList (Numeral.write code ++ ' ' :: text.toList ++ lineEnd)

/-- The word that stands in front of the size of a payload. -/
def payloadWord : List Char := ['D', 'A', 'T', 'A']

/-- The line that announces a payload. -/
def header (code size : Nat) : String :=
  String.ofList (Numeral.write code ++ ' ' :: payloadWord ++ ' ' :: Numeral.write size ++ lineEnd)

/-- A reply with a payload. -/
def payload (code : Nat) (text : String) : Bytes :=
  let body := Utf8.encode text
  Utf8.encode (header code body.length) ++ body

/-- The word that events start with. -/
def eventWord : List Char := ['E', 'V', 'E', 'N', 'T']

/-- An event. -/
def event (e : Event) : String :=
  String.ofList (eventWord ++ ' ' :: e.topic.toList ++ ' ' :: Json.write e.payload ++ lineEnd)

end Wire

/-- The answer to a request. -/
structure Reply where
  status : Status
  code : Nat
  message : String
  /-- In place of the message, if there is one. -/
  payload : Option String
  deriving DecidableEq, Repr

namespace Reply

/-- A reply of one line. -/
def ofMessage (code : Nat) (message : String) : Reply := ⟨.success, code, message, none⟩

/-- A reply with a payload. -/
def ofPayload (code : Nat) (payload : String) : Reply := ⟨.success, code, "", some payload⟩

/-- A reply to a request that failed. -/
def ofFailure (code : Nat) (message : String) : Reply := ⟨.failure message, code, message, none⟩

/-- The reply with another status. -/
def withStatus (reply : Reply) (status : Status) : Reply := { reply with status }

/-- The bytes of a reply. -/
def toWire (reply : Reply) : Bytes :=
  match reply.payload with
  | some payload => Wire.payload reply.code payload
  | none => Utf8.encode (Wire.line reply.code reply.message)

end Reply
end LineStore
