import LineStore.Proofs.Protocol.OneLine
import LineStore.Server.Connection

/-!
# Reading back what was sent

A client that reads frames off the wire gets back what the server sent, in order and to the last
byte, however replies and events were mixed (`readAll_sent`). Each output reads back alone, whatever
follows it (`next?_append`): its line is whole because nothing in it breaks the line, and it is
taken for what it is because a message does not look like the header of a payload. A payload may
hold anything, since its bytes are counted and not looked at.
-/

namespace LineStore

/-! ## Events are single lines -/

namespace Json

theorem newline_not_mem_escape (c : Char) : '\n' ∉ escape c := by
  have hx : ∀ n < 0x20, '\n' ∉ Numeral.hex 4 n := by decide +kernel
  by_cases hn : c = '\n'
  · rw [hn]
    decide
  · unfold escape
    split
    case h_8 =>
      split
      · rename_i hc
        simpa using hx c.toNat hc
      · simpa using Ne.symm hn
    all_goals decide

theorem newline_not_mem_writeString (s : String) : '\n' ∉ writeString s := by
  unfold writeString
  simp only [List.cons_append, List.mem_cons, List.mem_append, List.mem_flatMap, not_or]
  refine ⟨by decide, ?_, by decide, by simp⟩
  rintro ⟨c, -, hc⟩
  exact newline_not_mem_escape c hc

end Json

theorem Announcement.newline_not_mem_write (a : Announcement) : '\n' ∉ Json.write a.toValue := by
  have hs := Json.newline_not_mem_writeString
  have hn : '\n' ∉ Numeral.write a.timestamp := Numeral.not_mem_write (by decide)
  simp only [toValue, Json.write, Json.writeMembers, Json.Value.natural]
  simp [hs, hn, Json.writeNumber]

/-! ## Requests that are not carried out -/

namespace Intake

theorem plain_lineTooLong : lineTooLong.Plain :=
  Reply.plain_mk _ _ (by decide +kernel) (by decide +kernel)

theorem plain_bodyTooLong (limit : Nat) : (bodyTooLong limit).Plain := by
  have hw : OneLine (String.ofList (Numeral.write limit)) :=
    oneLine_ofList.2 (Numeral.not_mem_write (by decide))
  refine Reply.plain_mk _ _ (oneLine_append.2 ⟨oneLine_append.2 ⟨?_, hw⟩, ?_⟩)
    (.append (.append ?_ _) _)
  all_goals decide +kernel

theorem plain_bodyNotText : bodyNotText.Plain :=
  Reply.plain_mk _ _ (by decide +kernel) (by decide +kernel)

end Intake

/-! ## Lines -/

namespace FrameLine

theorem ofText?_code (code : Nat) (text : List Char) :
    ofText? (Numeral.write code ++ ' ' :: text) = some (ofCode code text) := by
  have hw : Numeral.write code ≠ Wire.eventWord := by
    intro h
    have hE : 'E' ∈ Numeral.write code := h ▸ List.mem_cons_self
    exact Numeral.not_mem_write (by decide) hE
  unfold ofText?
  rw [Text.cut?_append _ (Numeral.not_mem_write (by decide))]
  simp [hw, Numeral.digits?_write]

theorem ofCode_message {code : Nat} {text : String} (h : payloadSize? text.toList = none) :
    ofCode code text.toList = .message code text := by
  rw [ofCode, h]
  simp

theorem ofCode_header (code size : Nat) :
    ofCode code (Wire.payloadWord ++ ' ' :: Numeral.write size) = .header code size := by
  have hs : payloadSize? (Wire.payloadWord ++ ' ' :: Numeral.write size) = some size := by
    rw [payloadSize?, Text.cut?_append _ (by decide)]
    simp [Numeral.digits?_write]
  rw [ofCode, hs]

theorem ofText?_event {topic : String} (h : ' ' ∉ topic.toList) (body : List Char) :
    ofText? (Wire.eventWord ++ ' ' :: topic.toList ++ ' ' :: body) =
      some (.event topic (String.ofList body)) := by
  rw [List.append_assoc, List.cons_append, ofText?, Text.cut?_append _ (by decide)]
  simp [Text.cut?_append _ h]

end FrameLine

/-! ## Outputs -/

/-- What a reply tells: its code, its message and its payload. -/
def Reply.content (r : Reply) : Nat × String × Option String := (r.code, r.message, r.payload)

/-- What an event tells: its topic, and its payload as text. -/
def Event.content (e : Event) : String × String := (e.topic, String.ofList (Json.write e.payload))

namespace Output

/-- What a service sends: the answers to commands that were read off a line, the three replies to
requests that are not carried out, and announcements. -/
inductive OfService : Output → Prop
  | answer (stores : Stores) {raw : List Char} (h : '\n' ∉ raw.dropLast) (body : Option String)
      (world : World) : OfService (.reply (stores.handle (.parse raw) body world).1)
  | lineTooLong : OfService (.reply Intake.lineTooLong)
  | bodyTooLong (limit : Nat) : OfService (.reply (Intake.bodyTooLong limit))
  | bodyNotText : OfService (.reply Intake.bodyNotText)
  | announcement (a : Announcement) : OfService (.event a.event)

theorem OfService.plain {r : Reply} (h : OfService (.reply r)) : r.Plain := by
  cases h with
  | answer stores hraw body world =>
    exact stores.plain_handle body world (Command.oneLine_of_mem_texts hraw)
  | lineTooLong => exact Intake.plain_lineTooLong
  | bodyTooLong limit => exact Intake.plain_bodyTooLong limit
  | bodyNotText => exact Intake.plain_bodyNotText

end Output

namespace Frame

/-- What an output reads as. -/
def ofOutput : Output → Frame
  | .reply r => ofReply r
  | .event e => ofEvent e

/-- What a frame tells of the reply that it is, if it is one. -/
def replyContent? : Frame → Option (Nat × String × Option String)
  | message code text => some (code, text, none)
  | payload code text => some (code, "", some text)
  | event .. => none

/-- What a frame tells of the event that it is, if it is one. A client that waits for a reply sets
such a frame aside. -/
def eventContent? : Frame → Option (String × String)
  | event topic body => some (topic, body)
  | _ => none

theorem replyContent?_ofReply {r : Reply} (h : r.Plain) :
    (ofReply r).replyContent? = some r.content := by
  obtain ⟨status, code, message, payload⟩ := r
  cases payload with
  | none => rfl
  | some text =>
    have hm : message = "" := h.silent (by simp)
    rw [hm]
    rfl

theorem eventContent?_ofReply (r : Reply) : (ofReply r).eventContent? = none := by
  unfold ofReply
  split <;> rfl

/-- The first line decides the first frame. -/
theorem next?_line {content : List Char} (h : '\n' ∉ content) (rest : Bytes) :
    next? (Utf8.encode (String.ofList (content ++ Wire.lineEnd)) ++ rest) =
      (FrameLine.ofText? content).bind (ofLine? rest) := by
  have hf : Text.lineEnd ∉ Utf8.encode (String.ofList (content ++ ['\r'])) := by
    rw [Utf8.lineEnd_mem_encode, String.toList_ofList]
    simp [h]
  have hl : Utf8.encode (String.ofList (content ++ Wire.lineEnd)) =
      Utf8.encode (String.ofList (content ++ ['\r'])) ++ [Text.lineEnd] := by
    rw [Utf8.encode_ofList, Utf8.encode_ofList, Wire.lineEnd, List.flatMap_append,
      List.flatMap_append, List.append_assoc]
    rfl
  unfold next?
  rw [hl, List.append_assoc, List.singleton_append, Text.splitLine?_append _ hf, ← hl]
  have hc : Text.stem? Wire.lineEnd (content ++ Wire.lineEnd) = some content :=
    Text.stem?_eq_some_iff.2 rfl
  simp only [Option.bind_eq_bind, Option.bind_some, Utf8.decode?_encode, String.toList_ofList, hc]

theorem next?_message {r : Reply} (hp : r.payload = none) (h : r.Plain) (rest : Bytes) :
    next? ((Output.reply r).toWire ++ rest) = some (ofReply r, rest) := by
  obtain ⟨ho, hn⟩ := h.line hp
  have hc : '\n' ∉ Numeral.write r.code ++ ' ' :: r.message.toList := by
    simpa using ⟨Numeral.not_mem_write (by decide), ho⟩
  rw [Output.toWire, Reply.toWire, ofReply, hp]
  dsimp only
  rw [Wire.line, next?_line hc, FrameLine.ofText?_code, FrameLine.ofCode_message hn]
  rfl

/-- A payload is as long as its header says, and what it holds makes no difference. -/
theorem next?_payload (code : Nat) (text : String) (rest : Bytes) :
    next? (Wire.payload code text ++ rest) = some (.payload code text, rest) := by
  have hc : '\n' ∉ Numeral.write code ++ ' ' :: Wire.payloadWord ++
      ' ' :: Numeral.write (Utf8.encode text).length := by
    have hw : ∀ n, '\n' ∉ Numeral.write n := fun n => Numeral.not_mem_write (by decide)
    simp [hw, Wire.payloadWord]
  rw [Wire.payload, Wire.header, List.append_assoc, next?_line hc, List.append_assoc,
    List.cons_append, FrameLine.ofText?_code, FrameLine.ofCode_header]
  simp [ofLine?]

theorem next?_announcement (a : Announcement) (rest : Bytes) :
    next? ((Output.event a.event).toWire ++ rest) = some (ofEvent a.event, rest) := by
  have ht : '\n' ∉ settingsTopic.toList ∧ ' ' ∉ settingsTopic.toList := by decide +kernel
  have hc : '\n' ∉ Wire.eventWord ++ ' ' :: settingsTopic.toList ++
      ' ' :: Json.write a.toValue := by
    simpa [Wire.eventWord] using ⟨ht.1, a.newline_not_mem_write⟩
  rw [Output.toWire, Wire.event, Announcement.event, next?_line hc, FrameLine.ofText?_event ht.2]
  rfl

theorem next?_reply {r : Reply} (h : r.Plain) (rest : Bytes) :
    next? ((Output.reply r).toWire ++ rest) = some (ofReply r, rest) := by
  cases hp : r.payload with
  | none => exact next?_message hp h rest
  | some text =>
    rw [Output.toWire, Reply.toWire, ofReply, hp]
    exact next?_payload r.code text rest

/-- **Whatever a service sends is read back**, and what follows is left alone. -/
theorem next?_append {output : Output} (h : output.OfService) (rest : Bytes) :
    next? (output.toWire ++ rest) = some (ofOutput output, rest) := by
  cases output with
  | reply r => exact next?_reply h.plain rest
  | event e =>
    cases h with
    | announcement a => exact next?_announcement a rest

section

variable {outputs : List Output}

theorem readAll_flatMap_toWire (h : ∀ o ∈ outputs, o.OfService) :
    readAll (outputs.flatMap Output.toWire) = (outputs.map ofOutput, []) := by
  induction outputs with
  | nil => exact readAll_of_none rfl
  | cons output outputs ih =>
    rw [List.flatMap_cons, readAll_of_some (next?_append (h output List.mem_cons_self) _),
      ih fun o ho => h o (List.mem_cons_of_mem _ ho)]
    rfl

theorem filterMap_replyContent? (h : ∀ o ∈ outputs, o.OfService) :
    (outputs.map ofOutput).filterMap replyContent? =
      (outputs.filterMap Output.reply?).map Reply.content := by
  induction outputs with
  | nil => rfl
  | cons output outputs ih =>
    have hi := ih fun o ho => h o (List.mem_cons_of_mem _ ho)
    cases output with
    | event e => exact hi
    | reply r =>
      have hr := replyContent?_ofReply (h _ List.mem_cons_self).plain
      rw [List.map_cons, ofOutput, List.filterMap_cons_some hr, hi]
      rfl

theorem filterMap_eventContent? (outputs : List Output) :
    (outputs.map ofOutput).filterMap eventContent? =
      (outputs.filterMap Output.event?).map Event.content := by
  induction outputs with
  | nil => rfl
  | cons output outputs ih =>
    cases output with
    | reply r =>
      rw [List.map_cons, ofOutput, List.filterMap_cons_none (eventContent?_ofReply r)]
      exact ih
    | event e =>
      have he : (ofEvent e).eventContent? = some e.content := rfl
      rw [List.map_cons, ofOutput, List.filterMap_cons_some he, ih]
      rfl

/-- **The stream of what a service sends is read back uniquely.** The frames are the outputs one by
one, with no byte left over; without the events they are the replies in order, with their codes,
messages and payloads, and the events are all there, in order. -/
theorem readAll_sent (h : ∀ o ∈ outputs, o.OfService) :
    let read := readAll (outputs.flatMap Output.toWire)
    read = (outputs.map ofOutput, []) ∧
      read.1.filterMap replyContent? = (outputs.filterMap Output.reply?).map Reply.content ∧
      read.1.filterMap eventContent? = (outputs.filterMap Output.event?).map Event.content := by
  rw [readAll_flatMap_toWire h]
  exact ⟨rfl, filterMap_replyContent? h, filterMap_eventContent? outputs⟩

end

/-- A document that reads like an event and the header of a payload. -/
def decoyText : String := "EVENT settings-update 0\r\n200 DATA 9\r\n"

/-- A machine on which such a document is kept. -/
def decoyWorld : World :=
  ⟨⟨(Tree.empty.attach [] [0x64] .directory).attach [[0x64]] (Documents.fileName "a")
      (.file ⟨0, Utf8.encode decoyText, 0⟩), 0, 1, 0, fun _ => 0⟩, .ofCapacity 1⟩

/-- An event, the decoy as a payload, another event, and a message that quotes what looks like the
header of a payload. -/
theorem readAll_sent_decoy :
    let stores : Stores := ⟨⟨.ofString "/d"⟩, ⟨.ofString "/d"⟩, ⟨.ofString "/d"⟩⟩
    let answer := fun raw => (stores.handle (.parse raw) none decoyWorld).1
    let saved : Announcement := ⟨"m\n", "theme", "user", 5⟩
    let outputs : List Output := [.event saved.event, .reply (answer "GET a\r\n".toList),
      .event saved.event, .reply (answer "GET 200 DATA 4\n".toList)]
    let read := readAll (outputs.flatMap Output.toWire)
    read.1.filterMap replyContent? =
        [(200, "", some decoyText), (404, "Not found: 200 DATA 4", none)] ∧ read.2 = [] := by
  intro stores answer saved outputs
  have hs : ∀ o ∈ outputs, o.OfService := by
    simp only [outputs, List.mem_cons, List.not_mem_nil, or_false, forall_eq_or_imp, forall_eq]
    exact ⟨.announcement saved, .answer stores (by decide +kernel) none decoyWorld,
      .announcement saved, .answer stores (by decide +kernel) none decoyWorld⟩
  have h := readAll_sent hs
  refine ⟨?_, congrArg Prod.snd h.1⟩
  rw [h.2.1]
  decide +kernel

end Frame
end LineStore
