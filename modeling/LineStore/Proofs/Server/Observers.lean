import LineStore.Proofs.Run
import LineStore.Proofs.Server.Following

/-!
# What observers are told

What a client sees of events is in `Server.Observes`: those it is due come in order and once, none
before it has been told that it will get them, and to ask again does nothing. All of it is read off
from where the connection stands in the stream, so `observes` follows the connection to a point of
the run and looks there.
-/

namespace LineStore

namespace Server

variable {s : Server} {address : Address} {run : List Happening}

/-- The events that the connection was sent, in order. -/
def eventsTo (s : Server) (address : Address) : List Event :=
  (s.sentTo address).filterMap Output.event?

/-- What is to be seen of the events at the end of a connection, after a run. -/
structure Observes (s : Server) (address : Address) (run : List Happening) : Prop where
  /-- The events that it was sent are those it is due, in order, as far as they go. -/
  inOrder : (s.after run).eventsTo address <+: (s.due address run).getD []
  /-- If there is nothing more for it, and nothing in its forwarder's hand, they are all there. -/
  complete : ∀ c id, (s.after run).find? address = some c → c.observer = some id →
    ((s.after run).world.events.receive id).1 = .empty → c.subscription.hand? = none →
    (s.after run).eventsTo address = (s.due address run).getD []
  /-- If it never asks for events, it is sent none. -/
  stranger : (∀ front e back, run = front ++ e :: back →
    (s.after front).subscribes address e = false) → (s.after run).eventsTo address = []
  /-- No event comes before the reply to the first request for events. -/
  confirmed : ∀ e earlier, earlier ++ [.event e] <+: (s.after run).sentTo address →
    ∃ r, .reply r ∈ earlier ∧ r.status = .subscribe
  /-- To ask again is to change nothing. -/
  again : ∀ front e back, run = front ++ e :: back → (s.due address front).isSome = true →
    (s.after front).subscribes address e = true →
    ((s.after front).happen e).world.events = (s.after front).world.events ∧
      ((s.after front).happen e).eventsTo address = (s.after front).eventsTo address ∧
      s.due address (front ++ [e]) = s.due address front
  /-- Only a save that succeeds sends out an event. -/
  counted : ∀ front e back, run = front ++ e :: back →
    ((s.after front).happen e).world.events.sent =
      (s.after front).world.events.sent + ((s.after front).notice? e).toList.length

theorem keepsUp_append (first second : List Happening) :
    s.keepsUp address (first ++ second) =
      (s.keepsUp address first && (s.after first).keepsUp address second) := by
  induction first generalizing s with
  | nil => rfl
  | cons e first ih =>
    rw [List.cons_append, keepsUp, keepsUp, ih, Bool.and_assoc]
    rfl

theorem dueFrom_append (due : Option (List Event)) (first second : List Happening) :
    s.dueFrom address due (first ++ second) =
      (s.after first).dueFrom address (s.dueFrom address due first) second := by
  induction first generalizing s due with
  | nil =>
    cases due with
    | none => rfl
    | some events => simp [dueFrom, announced, after]
  | cons e first ih =>
    rw [List.cons_append, dueFrom_cons, dueFrom_cons, ih]
    rfl

theorem due_eq_none (h : ∀ front e back, run = front ++ e :: back →
    (s.after front).subscribes address e = false) : s.due address run = none := by
  induction run generalizing s with
  | nil => rfl
  | cons e run ih =>
    have he : s.subscribes address e = false := h [] e run rfl
    rw [due, he, if_neg Bool.false_ne_true]
    refine ih fun front e' back hrun => ?_
    exact h (e :: front) e' back (by rw [hrun]; rfl)

theorem eventsTo_of_latest {c : Connection} (h : Latest address c s.connections) :
    s.eventsTo address = c.events := by
  unfold eventsTo sentTo
  rw [h.find?_eq]
  rfl

/-- Who subscribes does so in a turn of its own. -/
theorem serve_of_subscribes {e : Happening} (h : s.subscribes address e = true) :
    e = .action (.serve address) ∧ ∃ c body rest, s.find? address = some c ∧
      c.subscription.isBusy = false ∧
      Intake.next s.limits c.ended c.input = .request .subscribe body rest := by
  cases e with
  | elsewhere host => cases h
  | action action =>
    cases action with
    | serve a =>
      have h : (s.turn? address (.serve a)).any Turn.subscribes = true := h
      rw [turn?] at h
      by_cases ha : a = address
      · subst ha
        refine ⟨rfl, ?_⟩
        rw [if_pos rfl] at h
        cases hf : s.find? a with
        | none =>
          rw [hf] at h
          cases h
        | some c =>
          rw [hf, Option.bind_some] at h
          cases hb : c.subscription.isBusy with
          | true =>
            rw [hb] at h
            cases h
          | false =>
            rw [hb, if_neg Bool.false_ne_true] at h
            cases hi : Intake.next s.limits c.ended c.input with
            | request command body rest =>
              rw [hi] at h
              cases command with
              | subscribe => exact ⟨c, body, rest, rfl, hb, hi⟩
              | _ => cases h
            | _ =>
              rw [hi] at h
              cases h
      · rw [if_neg ha] at h
        cases h
    | _ => cases h

/-- **A second request for events is answered, and does nothing else.** -/
theorem subscribes_again {history events : List Event} {c : Connection} {e : Happening}
    (hf : Follows s.connections s.world.events address history (some events) c)
    (h : s.subscribes address e = true) :
    (s.happen e).world.events = s.world.events ∧
      (s.happen e).eventsTo address = s.eventsTo address ∧ s.notice? e = none := by
  obtain ⟨rfl, d, body, rest, hd, hb, hi⟩ := serve_of_subscribes h
  have ho : c.isOpen = true ∧ c = d := by
    rw [find?_of_latest hf.latest] at hd
    split at hd
    case isFalse => cases hd
    case isTrue ho =>
      cases hd
      exact ⟨ho, rfl⟩
  obtain ⟨ho, rfl⟩ := ho
  obtain ⟨id, hid⟩ := hf.place.exists_observer
  obtain rfl := hf.latest.address_eq
  have hserve : s.act (.serve c.address) = s.readNext c := by
    rw [act_serve, hd]
    exact serve_of_not_busy hb
  have hforwarding : c.subscription.isForwarding = true := c.isForwarding_of_observer hid hb
  have hs : ∃ registry reply, s.readNext c =
      { (s.update c.address fun c => { c with input := rest }).send c.address (.reply reply) with
        registry } := by
    unfold readNext
    rw [hi]
    refine ⟨s.registry.record c.address, (s.stores.handle .subscribe body s.world).1, ?_⟩
    dsimp only
    unfold answer
    dsimp only
    show (if c.subscription.isForwarding = true then _ else _) = _
    rw [hforwarding, if_pos rfl]
    rfl
  obtain ⟨registry, reply, hs⟩ := hs
  have hl : Latest c.address { c with input := rest, sent := .reply reply :: c.sent }
      (s.happen (.action (.serve c.address))).connections := by
    show Latest _ _ (s.act (.serve c.address)).connections
    rw [hserve, hs]
    exact latest_send (latest_update (f := fun c => { c with input := rest }) hf.latest ho
      fun _ => rfl) ho (.reply reply)
  refine ⟨?_, ?_, ?_⟩
  · show (s.act (.serve c.address)).world.events = _
    rw [hserve, hs]
    rfl
  · rw [eventsTo_of_latest hl, eventsTo_of_latest hf.latest]
    exact c.events_reply reply
  · show (s.turn? c.address (.serve c.address)).bind _ = none
    rw [turn?, if_pos rfl, hd, Option.bind_some, hb, if_neg Bool.false_ne_true, hi]
    rfl

/-! ## What is to be seen at the end -/

section Seen

variable {history : List Event} {due : Option (List Event)} {c : Connection}

theorem eventsTo_prefix (h : Follows s.connections s.world.events address history due c) :
    s.eventsTo address <+: due.getD [] := by
  rw [eventsTo_of_latest h.latest]
  cases h.place with
  | stranger _ he =>
    rw [he]
    exact List.nil_prefix
  | observer _ _ he _ _ _ =>
    have htaken : c.events <+: c.taken := List.prefix_append _ _
    rw [he] at htaken
    exact htaken.trans (List.take_prefix _ _)

/-- An observer for whom the ring has nothing has got all there was. -/
theorem eventsTo_of_empty (h : Follows s.connections s.world.events address history due c)
    (ho : c.isOpen = true) {id : Nat} (hid : c.observer = some id)
    (hr : (s.world.events.receive id).1 = .empty) (hhand : c.subscription.hand? = none) :
    s.eventsTo address = due.getD [] := by
  rw [eventsTo_of_latest h.latest]
  cases h.place with
  | stranger hno _ =>
    rw [Connection.observer, hno] at hid
    cases hid
  | @observer earlier events position _ hh hp he hc hid' ha =>
    cases hid.symm.trans hid'
    have hkept : ∀ lost, (s.world.events.receive id).1 ≠ .lagged lost := fun lost hlost => by
      rw [hlost] at hr
      cases hr
    rw [Ring.receive_next (hh ▸ h.carries) (ha ho) hkept] at hr
    cases hev : events[position]? with
    | some event =>
      rw [hev] at hr
      cases hr
    | none =>
      rw [Connection.taken, hhand, Option.toList_none, List.append_nil] at he
      rw [he, List.take_of_length_le (List.getElem?_eq_none_iff.1 hev)]
      rfl

theorem reply_before_event (h : Follows s.connections s.world.events address history due c)
    {e : Event} {earlier : List Output} (hp : earlier ++ [.event e] <+: s.sentTo address) :
    ∃ r, .reply r ∈ earlier ∧ r.status = .subscribe := by
  have hsent : s.sentTo address = c.sent.reverse := by
    unfold sentTo
    rw [h.latest.find?_eq]
    rfl
  have hs : .event e :: earlier.reverse <:+ c.sent := by
    rw [hsent] at hp
    have hrev := List.reverse_suffix.2 hp
    rwa [List.reverse_append, List.reverse_reverse] at hrev
  cases h.place with
  | stranger _ he =>
    have hm := Connection.mem_events hs
    rw [he] at hm
    cases hm
  | observer _ _ _ hc _ _ =>
    obtain ⟨r, hm, hr⟩ := hc.first e _ hs
    exact ⟨r, List.mem_reverse.1 hm, hr⟩

end Seen

/-- **Observers get every announcement once and in order.** A connection that is accepted, in
whatever state the server then is, and that does not lag, observes the announcements of the saves
that succeed after it first asks for them, whatever else happens. -/
theorem observes (config : Config) (host : Host) (before : List Happening) {registry : Registry}
    (hr : ((start config host).after before).registry.insert? address = some registry)
    (hn : ((start config host).after before).find? address = none)
    (ha : ∀ e ∈ run, e.arrives address = false)
    (hk : (((start config host).after before).act (.arrive address)).keepsUp address run = true) :
    (((start config host).after before).act (.arrive address)).Observes address run := by
  have hw := (Wired.start config host).run before
  have hf := Follows.arrive hw hr hn
  generalize ((start config host).after before).act (.arrive address) = s at hk hf ⊢
  obtain ⟨c, hc⟩ := hf.run ha hk
  -- The same holds at every point of the run.
  have hfront : ∀ {front e back}, run = front ++ e :: back → ∃ history c,
      Follows (s.after front).connections (s.after front).world.events address history
        (s.due address front) c := by
    rintro front e back rfl
    rw [keepsUp_append, Bool.and_eq_true] at hk
    obtain ⟨d, hd⟩ := hf.run (fun e he => ha e (List.mem_append_left _ he)) hk.1
    exact ⟨_, d, hd⟩
  have hprefix : (s.after run).eventsTo address <+: (s.due address run).getD [] :=
    eventsTo_prefix hc
  constructor
  case inOrder => exact hprefix
  case complete =>
    intro d id hd hid hempty hhand
    rw [find?_of_latest hc.latest] at hd
    split at hd
    case isFalse => cases hd
    case isTrue ho =>
      cases hd
      exact eventsTo_of_empty hc ho hid hempty hhand
  case stranger =>
    intro h
    rw [due_eq_none h] at hprefix
    exact List.prefix_nil.1 hprefix
  case confirmed =>
    intro e earlier hp
    exact reply_before_event hc hp
  case again =>
    intro front e back hrun hdue hs
    obtain ⟨history, d, hd⟩ := hfront hrun
    obtain ⟨events, hevents⟩ := Option.isSome_iff_exists.1 hdue
    rw [hevents] at hd
    obtain ⟨hring, hsent, hnotice⟩ := subscribes_again hd hs
    refine ⟨hring, hsent, ?_⟩
    show s.dueFrom address none (front ++ [e]) = _
    rw [dueFrom_append]
    show (s.after front).dueFrom address (s.due address front) [e] = _
    rw [hevents, dueFrom, announced, hnotice]
    simp [announced]
  case counted =>
    intro front e back hrun
    obtain ⟨history, d, hd⟩ := hfront hrun
    have hnext := hd.toWired.happen e
    rw [hnext.carries.sent, hd.carries.sent, List.length_append]

/-- What a client sends, and so many steps of its handler. -/
def exchange (address : Address) (text : String) (steps : Nat) : List Happening :=
  .action (.receive address (Utf8.encode text)) :: List.replicate steps (.action (.serve address))

/-- An observer asks twice, and another client saves four settings: one before there is an observer,
one whose body is not JSON, one while the observer waits for its reply, and one at the end. -/
theorem observes_two_clients :
    let observer : Address := .v4 #v[127, 0, 0, 1] 1
    let writer : Address := .v4 #v[127, 0, 0, 1] 2
    let config : Config :=
      { documentsRoot := "/d", settingsRoot := "/d", dictionariesRoot := "/d", eventBuffer := 1 }
    let before : List Happening := .action (.arrive writer) ::
      exchange writer "PUTSET k u m 1\n1" 1
    let forward : Happening := .action (.forward observer)
    let run : List Happening := exchange observer "SUBSCRIBE\n" 1 ++
      exchange writer "PUTSET k u m 2\nnoPUTSET k u m 1\n2" 2 ++ [forward] ++
      exchange observer "SUBSCRIBE\n" 3 ++ [forward, forward] ++
      exchange writer "PUTSET k u m 1\n3" 1
    let begun := ((start config .fresh).after before).act (.arrive observer)
    begun.Observes observer run ∧ (begun.eventsTo observer).length = 0 ∧
      ((begun.after run).eventsTo observer).length = 1 ∧
      ((begun.due observer run).getD []).length = 2 := by
  intro observer writer config before forward run begun
  have hr : (((start config .fresh).after before).registry.insert? observer).isSome = true := by
    decide +kernel
  have hn : (((start config .fresh).after before).find? observer).isNone = true := by
    decide +kernel
  have hk : begun.keepsUp observer run = true := by decide +kernel
  obtain ⟨registry, hr⟩ := Option.isSome_iff_exists.1 hr
  exact ⟨observes config .fresh before hr (Option.isNone_iff_eq_none.1 hn) (by decide +kernel) hk,
    by decide +kernel, by decide +kernel, by decide +kernel⟩

end Server

end LineStore
