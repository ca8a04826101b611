import LineStore.Proofs.Server.Wiring

/-!
# Following the stream of events

A connection that has asked for events is due the announcements of all saves that succeed from then
on, whoever makes them (`Server.due`). What it has been sent is an initial piece of that. The
invariant is `Follows`. It holds the whole stream of events in its hand, where the ring has only the
end of it: the connection is due the stream **from the place where it joined**, and what lies
between there and the place where it stands now it was sent, or its forwarder has in hand. Others
move along the same ring, but under other numbers.

That no event comes before the reply to the request is a matter of the order of the handler's steps.
As long as it has the reply to write there is no forwarder, and once there is one the reply has been
written (`Connection.Confirmed`).

Each operation of the server keeps `Follows`, done for the connection itself or for another one;
`Follows.happen` puts them together, and `Follows.run` goes through a whole run.
-/

namespace LineStore

def Happening.arrives (address : Address) : Happening → Bool
  | action (.arrive a) => a = address
  | _ => false

def Happening.forwards (address : Address) : Happening → Bool
  | action (.forward a) => a = address
  | _ => false

def Turn.subscribes : Turn → Bool
  | dispatch .subscribe _ => true
  | _ => false

namespace Server

/-- Whether a connection asks for events, and that is dealt with. -/
def subscribes (s : Server) (address : Address) : Happening → Bool
  | .action action => (s.turn? address action).any Turn.subscribes
  | .elsewhere _ => false

/-- What a connection is due after a run that it had not asked for events before: nothing as long as
it does not ask, and then all events from the first time on. -/
def due (s : Server) (address : Address) : List Happening → Option (List Event)
  | [] => none
  | e :: run =>
    if s.subscribes address e then some ((s.happen e).announced run)
    else (s.happen e).due address run

/-- Whether the next event that the forwarder of a connection would receive has been lost. -/
def lags (s : Server) (address : Address) : Bool :=
  match (s.find? address).map Connection.subscription with
  | some (.forwarding id none) =>
    match (s.world.events.receive id).1 with
    | .lagged _ => true
    | _ => false
  | _ => false

/-- Whether a forwarder never lags when it takes a step. -/
def keepsUp (s : Server) (address : Address) : List Happening → Bool
  | [] => true
  | e :: run => !(e.forwards address && s.lags address) && (s.happen e).keepsUp address run

/-- What is due after one more thing has happened. -/
def owe (due : Option (List Event)) (asks : Bool) (event? : Option Event) : Option (List Event) :=
  match due with
  | some events => some (events ++ event?.toList)
  | none => if asks then some [] else none

/-- What is due after a run if this was due before. -/
def dueFrom (s : Server) (address : Address) (due : Option (List Event)) (run : List Happening) :
    Option (List Event) :=
  match due with
  | some events => some (events ++ s.announced run)
  | none => s.due address run

theorem dueFrom_cons (s : Server) (address : Address) (due : Option (List Event)) (e : Happening)
    (run : List Happening) :
    s.dueFrom address due (e :: run) =
      (s.happen e).dueFrom address (owe due (s.subscribes address e) (s.notice? e)) run := by
  cases due with
  | some events =>
    show some (events ++ (_ ++ _)) = some ((events ++ _) ++ _)
    rw [List.append_assoc]
  | none =>
    show Server.due s address (e :: run) = _
    rw [Server.due, owe]
    by_cases hs : s.subscribes address e = true
    · rw [if_pos hs, if_pos hs]
      rfl
    · rw [if_neg hs, if_neg hs]
      rfl

theorem owe_of_not_asks {due : Option (List Event)} {asks : Bool} (ha : asks = false)
    (event? : Option Event) : owe due asks event? = due.map (· ++ event?.toList) := by
  cases due with
  | none => simp [owe, ha]
  | some events => rfl

end Server

/-- Events are asked for by one command only. -/
theorem Stores.status_handle_eq_subscribe_iff (stores : Stores) (command : Command)
    (body : Option String) (world : World) :
    (stores.handle command body world).1.status = .subscribe ↔
      (Turn.dispatch command body).subscribes = true := by
  have hout : ∀ result : Except StoreError String, (handOut result).status ≠ .subscribe := by
    intro result
    cases result <;> exact fun h => by cases h
  cases command with
  | subscribe => exact ⟨fun _ => rfl, fun _ => rfl⟩
  | getSettings | data | list | get | put =>
    exact ⟨fun h => absurd h (hout _), fun h => by cases h⟩
  | putSettings key level client length =>
    refine ⟨fun h => ?_, fun h => by cases h⟩
    simp only [handle, replyToSave] at h
    split at h <;> cases h
  | delete name =>
    refine ⟨fun h => ?_, fun h => by cases h⟩
    simp only [handle, replyToDelete] at h
    split at h <;> cases h
  | quit | ready | malformed | unknown => exact ⟨fun h => (by cases h), fun h => (by cases h)⟩

namespace Connection

/-- The events that the connection was sent, in order. -/
def events (c : Connection) : List Event := c.sent.reverse.filterMap Output.event?

theorem events_reply (c : Connection) (r : Reply) :
    { c with sent := .reply r :: c.sent }.events = c.events := by
  simp [events, Output.event?]

theorem events_event (c : Connection) (e : Event) :
    { c with sent := .event e :: c.sent }.events = c.events ++ [e] := by
  simp [events, Output.event?]

theorem mem_events {c : Connection} {e : Event} {earlier : List Output}
    (h : .event e :: earlier <:+ c.sent) : e ∈ c.events :=
  List.mem_filterMap.2 ⟨.event e, List.mem_reverse.2 (h.subset List.mem_cons_self), rfl⟩

/-- The events that the connection was sent, and the one that its forwarder has in hand. -/
def taken (c : Connection) : List Event := c.events ++ c.subscription.hand?.toList

/-- The reply to the request for events is there or is still to come, and there is none before the
first event. -/
structure Confirmed (c : Connection) : Prop where
  promised : ∀ r ∈ c.subscription.reply?, r.status = .subscribe
  sent : c.subscription.reply? = none → ∃ r, .reply r ∈ c.sent ∧ r.status = .subscribe
  first : ∀ e earlier, .event e :: earlier <:+ c.sent →
    ∃ r, .reply r ∈ earlier ∧ r.status = .subscribe

namespace Confirmed

variable {c : Connection}

theorem reply (h : c.Confirmed) (r : Reply) :
    { c with sent := .reply r :: c.sent }.Confirmed := by
  constructor
  case promised => exact h.promised
  case sent =>
    intro hn
    obtain ⟨r', hm, hs⟩ := h.sent hn
    exact ⟨r', List.mem_cons_of_mem _ hm, hs⟩
  case first =>
    intro e earlier hp
    rcases List.suffix_cons_iff.1 hp with he | hp
    · cases he
    · exact h.first e earlier hp

/-- Events are written when there is no reply left to write. -/
theorem event (h : c.Confirmed) (hn : c.subscription.reply? = none) (e : Event) :
    { c with sent := .event e :: c.sent }.Confirmed := by
  constructor
  case promised => exact h.promised
  case sent =>
    intro _
    obtain ⟨r, hm, hs⟩ := h.sent hn
    exact ⟨r, List.mem_cons_of_mem _ hm, hs⟩
  case first =>
    intro e' earlier hp
    rcases List.suffix_cons_iff.1 hp with he | hp
    · cases he
      exact h.sent hn
    · exact h.first e' earlier hp

/-- The reply is written. -/
theorem confirm {id : Nat} {r : Reply} (h : c.Confirmed) (hs : c.subscription = .joined id r) :
    { c with sent := .reply r :: c.sent, subscription := .confirmed id }.Confirmed := by
  constructor
  case promised => exact fun _ hr => by cases hr
  case sent => exact fun _ => ⟨r, List.mem_cons_self, h.promised r (by rw [hs]; rfl)⟩
  case first => exact (h.reply r).first

theorem proceed (h : c.Confirmed) (hn : c.subscription.reply? = none) {subscription : Subscription}
    (hs : subscription.reply? = none) : { c with subscription }.Confirmed := by
  constructor
  case promised =>
    intro r hr
    cases hs.symm.trans hr
  case sent => exact fun _ => h.sent hn
  case first => exact h.first

end Confirmed

end Connection

/-! ## Following the stream -/

/-- How far a connection is with what it is due. -/
inductive Standing (ring : Ring) (history : List Event) (c : Connection) :
    Option (List Event) → Prop
  | stranger (ho : c.subscription = .absent) (he : c.events = []) : Standing ring history c none
  /-- It is due what comes after the place where it joined, and is `position` events further. -/
  | observer {earlier events : List Event} {position id : Nat} (hh : history = earlier ++ events)
      (hp : position ≤ events.length) (he : c.taken = events.take position)
      (hc : c.Confirmed) (ho : c.observer = some id)
      (ha : c.isOpen = true → ring.At id (earlier.length + position)) :
      Standing ring history c (some events)

theorem Standing.exists_observer {ring : Ring} {history events : List Event} {c : Connection}
    (h : Standing ring history c (some events)) : ∃ id, c.observer = some id := by
  cases h with
  | observer _ _ _ _ ho _ => exact ⟨_, ho⟩

/-- A connection follows the stream of events through a ring. -/
structure Follows (connections : List Connection) (ring : Ring) (address : Address)
    (history : List Event) (due : Option (List Event)) (c : Connection) : Prop
    extends Wired connections ring history where
  latest : Latest address c connections
  /-- Nobody else has its number. -/
  apart : ∀ d ∈ connections, d.address ≠ address → ∀ id, c.observer = some id →
    d.observer ≠ some id
  place : Standing ring history c due

theorem Latest.mem {address : Address} {c : Connection} {connections : List Connection}
    (h : Latest address c connections) : c ∈ connections := by
  induction h with
  | here _ _ => exact List.mem_cons_self
  | there _ _ ih => exact List.mem_cons_of_mem _ ih

namespace Follows

open Server

variable {s : Server} {ring : Ring} {address other : Address} {history : List Event}
  {due : Option (List Event)} {c d : Connection} {f : Connection → Connection}

/-! ## What others do -/

section Other

theorem update_other (h : Follows s.connections ring address history due c) (hn : other ≠ address)
    (hf : ∀ d, (f d).address = d.address) (ho : ∀ d, (f d).observer = d.observer) :
    Follows (s.update other f).connections ring address history due c := by
  constructor
  case toWired => exact h.toWired.update ho
  case latest => exact latest_update_other h.latest hn hf
  case apart =>
    intro d hd hda id hid
    obtain ⟨e, he, hea, heo⟩ := members_update hf ho d hd
    rw [heo]
    exact h.apart e he (hea ▸ hda) id hid
  case place => exact h.place

theorem send_other (h : Follows s.connections ring address history due c) (hn : other ≠ address)
    (output : Output) : Follows (s.send other output).connections ring address history due c :=
  h.update_other hn (fun _ => rfl) fun _ => rfl

/-- What becomes of the ring is of no concern if it leaves the connection's place alone. -/
theorem onRing (h : Follows s.connections ring address history due c) {ring' : Ring}
    (hw : Wired s.connections ring' history)
    (ha : ∀ id position, c.observer = some id → ring.At id position → ring'.At id position) :
    Follows s.connections ring' address history due c := by
  refine ⟨hw, h.latest, h.apart, ?_⟩
  cases h.place with
  | stranger ho he => exact .stranger ho he
  | observer hh hp he hc ho hat =>
    exact .observer hh hp he hc ho fun hopen => ha _ _ ho (hat hopen)

theorem proceed_other (h : Follows s.connections ring address history due c) (hn : other ≠ address)
    (hf : ∀ d, (f d).address = d.address) {id : Nat} (hid : id < ring.joined)
    (hne : c.observer ≠ some id) (hs : ∀ d, (f d).observer = some id) :
    Follows (s.update other f).connections ring address history due c := by
  constructor
  case toWired => exact h.toWired.proceed hid hs
  case latest => exact latest_update_other h.latest hn hf
  case apart =>
    intro e he hea j hj
    obtain ⟨b, hb, rfl | ⟨rfl, _⟩⟩ := mem_update he
    · exact h.apart e hb hea j hj
    · intro hjd
      cases (hs b).symm.trans hjd
      exact hne hj
  case place => exact h.place

theorem join_other (h : Follows s.connections s.world.events address history due c)
    (hn : d.address ≠ address) (reply : Reply) :
    Follows (s.join d reply).connections (s.join d reply).world.events address history due c := by
  have hwired : Wired s.connections s.world.events.subscribe.2 history :=
    ⟨h.carries.subscribe, fun d hd id hid => Nat.lt_succ_of_lt (h.known d hd id hid)⟩
  have hr := h.onRing hwired fun _ _ _ hat => hat.subscribe
  refine hr.proceed_other hn (fun _ => rfl) (Nat.lt_succ_self _) ?_ fun _ => rfl
  -- The new number is above all that are in use.
  intro hj
  exact Nat.lt_irrefl _ (h.known c h.latest.mem _ hj)

theorem close_other (h : Follows s.connections s.world.events address history due c)
    (hn : d.address ≠ address) (hd : ∀ id, c.observer = some id → d.observer ≠ some id) :
    Follows (s.close d).connections (s.close d).world.events address history due c := by
  have hu : Follows (s.update d.address fun c => { c with isOpen := false }).connections
      s.world.events address history due c := h.update_other hn (fun _ => rfl) fun _ => rfl
  unfold close
  cases hid : d.observer with
  | none => exact hu
  | some gone =>
    refine onRing (s := s.update d.address fun c => { c with isOpen := false }) hu
      ⟨hu.carries.unsubscribe gone, hu.known⟩ fun id position ho hat => hat.unsubscribe ?_
    rintro rfl
    exact hd _ ho hid

/-- The place of another connection at the ring is a place, and not this one's. -/
theorem place_other (h : Follows s.connections ring address history due c)
    (hm : d ∈ s.connections) (hn : d.address ≠ address) {id : Nat} (hid : d.observer = some id) :
    id < ring.joined ∧ c.observer ≠ some id :=
  ⟨h.known d hm id hid, fun hc => h.apart d hm hn id hc hid⟩

theorem forward_other (h : Follows s.connections s.world.events address history due c)
    (hm : d ∈ s.connections) (hn : d.address ≠ address) :
    Follows (s.forward d).connections (s.forward d).world.events address history due c := by
  unfold forward
  cases hs : d.subscription with
  | absent | joined _ _ | confirmed _ => exact h
  | forwarding moved hand =>
    obtain ⟨hid, hne⟩ := h.place_other hm hn (d.observer_eq hs)
    cases hand with
    | some event => exact h.proceed_other hn (fun _ => rfl) hid hne fun _ => rfl
    | none =>
      have hr : Follows s.connections (s.world.events.receive moved).2 address history due c := by
        refine h.onRing (h.toWired.receive moved) fun id position ho hat => hat.receive ?_
        rintro rfl
        exact hne ho
      dsimp only
      split
      · refine hr.proceed_other hn (fun _ => rfl) ?_ hne fun _ => rfl
        rw [Ring.joined_receive]
        exact hid
      · exact hr

/-- The handler of another connection goes on with a request for events. -/
theorem serve_busy_other (h : Follows s.connections s.world.events address history due c)
    (hm : d ∈ s.connections) (hn : d.address ≠ address) (hb : d.subscription.isBusy = true) :
    Follows (s.serve d).connections (s.serve d).world.events address history due c := by
  unfold serve
  cases hs : d.subscription with
  | absent | forwarding _ _ => rw [hs] at hb; cases hb
  | joined id reply =>
    obtain ⟨hid, hne⟩ := h.place_other hm hn (d.observer_eq hs)
    exact h.proceed_other hn (fun _ => rfl) hid hne fun _ => rfl
  | confirmed id =>
    obtain ⟨hid, hne⟩ := h.place_other hm hn (d.observer_eq hs)
    exact h.proceed_other hn (fun _ => rfl) hid hne fun _ => rfl

theorem emit {connections : List Connection}
    (h : Follows connections ring address history due c) (event? : Option Event) :
    Follows connections (event?.elim ring ring.emit) address (history ++ event?.toList)
      (due.map (· ++ event?.toList)) c := by
  refine ⟨h.toWired.emit event?, h.latest, h.apart, ?_⟩
  have hat : ∀ id position, ring.At id position →
      (event?.elim ring ring.emit).At id position := by
    intro id position hat
    cases event? <;> exact hat
  cases h.place with
  | stranger ho he => exact .stranger ho he
  | @observer earlier events position id hh hp he hc ho ha =>
    have hh' : history ++ event?.toList = earlier ++ (events ++ event?.toList) := by
      rw [hh, List.append_assoc]
    have hp' : position ≤ (events ++ event?.toList).length := by
      rw [List.length_append]
      omega
    refine .observer hh' hp' ?_ hc ho fun hopen => hat _ _ (ha hopen)
    rw [he]
    exact (List.take_append_of_le_length hp).symm

/-- No event is sent out. -/
theorem quiet {connections : List Connection}
    (h : Follows connections ring address history due c) :
    Follows connections ring address (history ++ []) (due.map (· ++ [])) c :=
  h.emit none

theorem answer_other (h : Follows s.connections s.world.events address history due c)
    (hn : d.address ≠ address) (hd : ∀ id, c.observer = some id → d.observer ≠ some id)
    (command : Command) (body : Option String) :
    let event? := (Turn.dispatch command body).event? s.stores s.world
    Follows (s.answer d command body).connections (s.answer d command body).world.events address
      (history ++ event?.toList) (due.map (· ++ event?.toList)) c := by
  intro event?
  have he := h.emit event?
  rw [← Stores.events_handle s.stores command body s.world] at he
  unfold answer
  generalize s.stores.handle command body s.world = result at he ⊢
  obtain ⟨reply, world⟩ := result
  have hs := send_other (s := { s with world, registry := s.registry.record d.address }) he hn
    (.reply reply)
  dsimp only
  split
  · split
    · exact hs
    · exact join_other (s := { s with world, registry := s.registry.record d.address }) he hn reply
  · exact close_other hs hn hd
  · exact hs

theorem readNext_other (h : Follows s.connections s.world.events address history due c)
    (hn : d.address ≠ address) (hd : ∀ id, c.observer = some id → d.observer ≠ some id) :
    let event? := (Intake.next s.limits d.ended d.input).turn?.bind (·.event? s.stores s.world)
    Follows (s.readNext d).connections (s.readNext d).world.events address
      (history ++ event?.toList) (due.map (· ++ event?.toList)) c := by
  have hu : ∀ rest, Follows (s.update d.address fun c => { c with input := rest }).connections
      s.world.events address history due c := fun rest =>
    h.update_other hn (fun _ => rfl) fun _ => rfl
  unfold readNext
  cases Intake.next s.limits d.ended d.input with
  | wait => exact h.quiet
  | stop => exact (h.close_other hn hd).quiet
  | hangUp reply =>
    exact (close_other (s := s.send d.address (.reply reply)) (h.send_other hn _) hn hd).quiet
  | refuse reply rest => exact ((hu rest).send_other hn _).quiet
  | request command body rest =>
    exact answer_other (s := s.update d.address fun c => { c with input := rest }) (hu rest) hn hd
      command body

theorem arrive_other (h : Follows s.connections s.world.events address history due c)
    (hn : other ≠ address) :
    Follows (s.arrive other).connections (s.arrive other).world.events address history due c := by
  have hw := h.toWired.arrive other
  have hapart : ∀ e : Connection, e.observer = none → ∀ d ∈ e :: s.connections,
      d.address ≠ address → ∀ id, c.observer = some id → d.observer ≠ some id := by
    intro e heo d hd hda id hid
    rcases List.mem_cons.1 hd with rfl | hd
    · rw [heo]
      simp
    · exact h.apart d hd hda id hid
  revert hw
  unfold arrive
  split
  · exact fun hw => ⟨hw, .there hn h.latest, hapart _ rfl, h.place⟩
  · exact fun hw => ⟨hw, .there hn h.latest, hapart _ rfl, h.place⟩

end Other

/-! ## What the connection does itself -/

/-- The connection comes to stand somewhere else. -/
theorem update_own (h : Follows s.connections ring address history due c) (ho : c.isOpen = true)
    (hf : ∀ d, (f d).address = d.address) (hobs : (f c).observer = c.observer) {ring' : Ring}
    (hw : Wired (s.update address f).connections ring' history)
    (hp : Standing ring' history (f c) due) :
    Follows (s.update address f).connections ring' address history due (f c) := by
  refine ⟨hw, latest_update h.latest ho hf, ?_, hp⟩
  intro d hd hda id hid
  obtain ⟨e, he, rfl | ⟨rfl, hea⟩⟩ := mem_update hd
  · exact h.apart d he hda id (hobs ▸ hid)
  · exact absurd ((hf e).trans hea) hda

/-- The connection changes, but not in what events it gets. -/
theorem alter_own (h : Follows s.connections ring address history due c) (ho : c.isOpen = true)
    (hf : ∀ d, (f d).address = d.address) (hobs : ∀ d, (f d).subscription = d.subscription)
    (he : (f c).events = c.events) (hc : c.Confirmed → (f c).Confirmed) :
    Follows (s.update address f).connections ring address history due (f c) := by
  have hobserver : ∀ d, (f d).observer = d.observer := fun d => Connection.observer_eq (hobs d)
  refine h.update_own ho hf (hobserver c) (h.toWired.update hobserver) ?_
  cases h.place with
  | stranger hno hev => exact .stranger ((hobs c).trans hno) (he.trans hev)
  | observer hh hp hev hcon hid ha =>
    refine .observer hh hp ?_ (hc hcon) ((hobserver c).trans hid) fun _ => ha ho
    rw [Connection.taken, he, hobs]
    exact hev

/-- The connection goes on with getting events, at the same place. -/
theorem proceed_own (h : Follows s.connections ring address history due c) (ho : c.isOpen = true)
    (hf : ∀ d, (f d).address = d.address) {id : Nat} (hid : c.observer = some id)
    (hs : ∀ d, (f d).observer = some id) (hp : Standing ring history (f c) due) :
    Follows (s.update address f).connections ring address history due (f c) :=
  h.update_own ho hf ((hs c).trans hid.symm)
    (h.toWired.proceed (h.known c h.latest.mem id hid) hs) hp

theorem send_own (h : Follows s.connections ring address history due c) (ho : c.isOpen = true)
    (r : Reply) :
    Follows (s.send address (.reply r)).connections ring address history due
      { c with sent := .reply r :: c.sent } :=
  h.alter_own (f := fun c => { c with sent := .reply r :: c.sent }) ho (fun _ => rfl)
    (fun _ => rfl) (c.events_reply r) fun hc => hc.reply r

theorem close_own (h : Follows s.connections s.world.events address history due c)
    (ho : c.isOpen = true) (hd : d.address = address) :
    Follows (s.close d).connections (s.close d).world.events address history due
      { c with isOpen := false } := by
  cases hd
  have hu := h.alter_own (f := fun c => { c with isOpen := false }) ho (fun _ => rfl)
    (fun _ => rfl) rfl fun hc => ⟨hc.promised, hc.sent, hc.first⟩
  have hplace : ∀ ring', Standing ring' history { c with isOpen := false } due := by
    intro ring'
    cases hu.place with
    | stranger ho he => exact .stranger ho he
    | observer hh hp he hc ho ha => exact .observer hh hp he hc ho fun hopen => by cases hopen
  unfold close
  cases d.observer with
  | none => exact hu
  | some id => exact ⟨⟨hu.carries.unsubscribe id, hu.known⟩, hu.latest, hu.apart, hplace _⟩

/-- From the moment it joins, a connection is due what comes. -/
theorem join_own (h : Follows s.connections s.world.events address history none c)
    (ho : c.isOpen = true) (hd : d.address = address) {reply : Reply}
    (hr : reply.status = .subscribe) :
    Follows (s.join d reply).connections (s.join d reply).world.events address history (some [])
      { c with subscription := .joined s.world.events.joined reply } := by
  cases hd
  have hev : c.events = [] := by
    cases h.place with
    | stranger _ he => exact he
  constructor
  case toWired => exact h.toWired.join d reply
  case latest => exact latest_subscription h.latest ho (.joined s.world.events.joined reply)
  case apart =>
    intro e he hea id hid
    cases hid
    obtain ⟨b, hb, rfl | ⟨rfl, hba⟩⟩ := mem_update he
    · intro hj
      exact Nat.lt_irrefl _ (h.known e hb _ hj)
    · exact absurd hba hea
  case place =>
    refine .observer (List.append_nil history).symm (Nat.le_refl 0) ?_ ⟨?_, ?_, ?_⟩ rfl
      fun _ => Ring.At.subscribe_self h.carries
    · exact (List.append_nil _).trans hev
    · intro r hm
      cases hm
      exact hr
    · exact fun hn => by cases hn
    · intro e earlier hp
      -- It was sent no event so far.
      have hm : e ∈ c.events := Connection.mem_events hp
      rw [hev] at hm
      cases hm

/-- No event is sent out, and the connection does not ask for events. -/
theorem still {connections : List Connection}
    (h : Follows connections ring address history due c) :
    ∃ after, Follows connections ring address (history ++ []) (owe due false none) after :=
  ⟨c, by rw [owe_of_not_asks rfl]; exact h.quiet⟩

theorem answer_own (h : Follows s.connections s.world.events address history due c)
    (ho : c.isOpen = true) (hb : c.subscription.isBusy = false) (hd : d.address = address)
    (hsub : d.subscription = c.subscription) (command : Command) (body : Option String) :
    let turn := Turn.dispatch command body
    let event? := turn.event? s.stores s.world
    ∃ after, Follows (s.answer d command body).connections
      (s.answer d command body).world.events address (history ++ event?.toList)
      (owe due turn.subscribes event?) after := by
  intro turn event?
  cases hd
  have he := h.emit event?
  have hstatus := Stores.status_handle_eq_subscribe_iff s.stores command body s.world
  rw [← Stores.events_handle s.stores command body s.world] at he
  unfold answer
  generalize s.stores.handle command body s.world = result at he hstatus ⊢
  obtain ⟨reply, world⟩ := result
  have hs := send_own (s := { s with world, registry := s.registry.record d.address }) he ho reply
  dsimp only at hstatus ⊢
  split
  case h_1 hr =>
    have hasks : turn.subscribes = true := hstatus.1 hr
    cases due with
    | none =>
      have hno : c.subscription = .absent := by
        cases h.place with
        | stranger hno _ => exact hno
      rw [hsub, hno, owe, if_pos hasks]
      exact ⟨_, join_own (s := { s with world, registry := s.registry.record d.address }) he ho rfl
        hr⟩
    | some events =>
      have hforwarding : c.subscription.isForwarding = true := by
        obtain ⟨id, hid⟩ := h.place.exists_observer
        exact c.isForwarding_of_observer hid hb
      rw [hsub, hforwarding, if_pos rfl]
      exact ⟨_, hs⟩
  case h_2 hr =>
    have hasks : turn.subscribes = false := by
      rw [Bool.eq_false_iff]
      intro hasks
      rw [hstatus.2 hasks] at hr
      cases hr
    rw [owe_of_not_asks hasks]
    exact ⟨_, close_own hs ho rfl⟩
  case h_3 hr _ =>
    have hasks : turn.subscribes = false := by
      rw [Bool.eq_false_iff]
      exact fun hasks => hr (hstatus.2 hasks)
    rw [owe_of_not_asks hasks]
    exact ⟨_, hs⟩

theorem readNext_own (h : Follows s.connections s.world.events address history due c)
    (ho : c.isOpen = true) (hb : c.subscription.isBusy = false) :
    let turn? := (Intake.next s.limits c.ended c.input).turn?
    let event? := turn?.bind (·.event? s.stores s.world)
    ∃ after, Follows (s.readNext c).connections (s.readNext c).world.events address
      (history ++ event?.toList) (owe due (turn?.any Turn.subscribes) event?) after := by
  obtain rfl := h.latest.address_eq
  have hu : ∀ rest, Follows (s.update c.address fun c => { c with input := rest }).connections
      s.world.events c.address history due { c with input := rest } := fun rest =>
    h.alter_own (f := fun c => { c with input := rest }) ho (fun _ => rfl) (fun _ => rfl) rfl
      fun hc => ⟨hc.promised, hc.sent, hc.first⟩
  unfold readNext
  cases Intake.next s.limits c.ended c.input with
  | wait => exact h.still
  | stop => exact (h.close_own ho rfl).still
  | hangUp reply =>
    exact (close_own (s := s.send c.address (.reply reply)) (h.send_own ho reply) ho rfl).still
  | refuse reply rest => exact ((hu rest).send_own ho reply).still
  | request command body rest =>
    exact answer_own (s := s.update c.address fun c => { c with input := rest }) (hu rest) ho hb rfl
      rfl command body

/-- **The reply is written first, and then the forwarder started**, and neither changes what the
connection is due. -/
theorem serve_busy_own (h : Follows s.connections s.world.events address history due c)
    (ho : c.isOpen = true) (hb : c.subscription.isBusy = true) :
    ∃ after, Follows (s.serve c).connections (s.serve c).world.events address history due
      after := by
  obtain rfl := h.latest.address_eq
  cases h.place with
  | stranger hno _ =>
    rw [hno] at hb
    cases hb
  | observer hh hp he hc hid ha =>
    unfold serve
    cases hs : c.subscription with
    | absent | forwarding _ _ => rw [hs] at hb; cases hb
    | joined j reply =>
      have hj : c.observer = some j := c.observer_eq hs
      rw [Connection.taken, hs] at he
      refine ⟨_, h.proceed_own
        (f := fun c => { c with sent := .reply reply :: c.sent, subscription := .confirmed j }) ho
        (fun _ => rfl) hj (fun _ => rfl)
        (.observer hh hp ?_ (hc.confirm hs) (hj.symm.trans hid) fun _ => ha ho)⟩
      exact (congrArg (· ++ []) (c.events_reply reply)).trans he
    | confirmed j =>
      have hj : c.observer = some j := c.observer_eq hs
      rw [Connection.taken, hs] at he
      exact ⟨_, h.proceed_own (f := fun c => { c with subscription := .forwarding j none }) ho
        (fun _ => rfl) hj (fun _ => rfl) (.observer hh hp he (hc.proceed (by rw [hs]; rfl) rfl)
        (hj.symm.trans hid) fun _ => ha ho)⟩

/-- **The next event that its forwarder receives is the next that it is due**, and that is the next
to be written. -/
theorem forward_own (h : Follows s.connections s.world.events address history due c)
    (ho : c.isOpen = true) (hl : s.lags address = false) :
    ∃ after, Follows (s.forward c).connections (s.forward c).world.events address history due
      after := by
  obtain rfl := h.latest.address_eq
  cases h.place with
  | stranger hno _ =>
    unfold forward
    rw [hno]
    exact ⟨c, h⟩
  | @observer earlier events position id hh hp he hc hid ha =>
    unfold forward
    cases hs : c.subscription with
    | absent | joined _ _ | confirmed _ => exact ⟨c, h⟩
    | forwarding j hand =>
      have hj : c.observer = some j := c.observer_eq hs
      obtain rfl : id = j := Option.some.inj (hid.symm.trans hj)
      have hnone : c.subscription.reply? = none := by rw [hs]; rfl
      rw [Connection.taken, hs] at he
      cases hand with
      | some event =>
        refine ⟨_, h.proceed_own (f := fun c =>
          { c with sent := .event event :: c.sent, subscription := .forwarding id none }) ho
          (fun _ => rfl) hid (fun _ => rfl)
          (.observer hh hp ?_ ((hc.event hnone event).proceed hnone rfl) rfl fun _ => ha ho)⟩
        exact (List.append_nil _).trans ((c.events_event event).trans he)
      | none =>
        have hkept : ∀ lost, (s.world.events.receive id).1 ≠ .lagged lost := by
          intro lost hlost
          unfold lags at hl
          rw [find?_of_latest h.latest, if_pos ho, Option.map_some, hs] at hl
          dsimp only at hl
          rw [hlost] at hl
          cases hl
        have hat := ha ho
        have hr := Ring.receive_next (hh ▸ h.carries) hat hkept
        dsimp only
        rw [hr]
        cases hev : events[position]? with
        | none => exact ⟨c, h⟩
        | some event =>
          obtain ⟨hlt, _⟩ := List.getElem?_eq_some_iff.1 hev
          have hmoved : Wired s.connections
              (s.world.events.moveTo id (earlier.length + position + 1)) history :=
            ⟨h.carries.moveTo id _, h.known⟩
          have hknown : id < (s.world.events.moveTo id (earlier.length + position + 1)).joined :=
            h.known c h.latest.mem id hid
          refine ⟨_, h.update_own
            (f := fun c => { c with subscription := .forwarding id (some event) }) ho
            (fun _ => rfl) hid.symm (hmoved.proceed hknown fun _ => rfl)
            (.observer hh (show position + 1 ≤ events.length from hlt) ?_ (hc.proceed hnone rfl) rfl
              fun _ => hat.moveTo_self _)⟩
          rw [List.take_add_one, hev, ← he]
          exact congrArg (· ++ [event]) (List.append_nil _).symm

/-! ## Steps and runs -/

/-- Whoever is found for another address has another number. -/
theorem apart_found (h : Follows s.connections ring address history due c)
    (hn : other ≠ address) (hd : s.find? other = some d) :
    d.address ≠ address ∧ ∀ id, c.observer = some id → d.observer ≠ some id := by
  have hda : d.address ≠ address := (address_of_find? hd).1 ▸ hn
  exact ⟨hda, h.apart d (List.mem_of_find?_eq_some hd) hda⟩

theorem act_other (h : Follows s.connections s.world.events address history due c)
    {action : Action} (hn : action.address ≠ address) :
    let event? := s.notice? (.action action)
    Follows (s.act action).connections (s.act action).world.events address
      (history ++ event?.toList) (due.map (· ++ event?.toList)) c := by
  cases action with
  | arrive a => exact (h.arrive_other hn).quiet
  | receive a bytes =>
    exact (h.update_other (f := fun c => { c with input := c.input ++ bytes }) hn (fun _ => rfl)
      fun _ => rfl).quiet
  | finish a =>
    exact (h.update_other (f := fun c => { c with ended := true }) hn (fun _ => rfl)
      fun _ => rfl).quiet
  | lose a =>
    rw [act_lose]
    cases hd : s.find? a with
    | none => exact h.quiet
    | some d =>
      obtain ⟨hda, hid⟩ := h.apart_found hn hd
      exact (h.close_other hda hid).quiet
  | serve a =>
    show Follows _ _ _ (history ++ ((s.turn? a (.serve a)).bind _).toList)
      (due.map (· ++ ((s.turn? a (.serve a)).bind _).toList)) c
    rw [act_serve, turn?, if_pos rfl]
    cases hd : s.find? a with
    | none => exact h.quiet
    | some d =>
      obtain ⟨hda, hid⟩ := h.apart_found hn hd
      rw [Option.elim_some, Option.bind_some]
      by_cases hb : d.subscription.isBusy = true
      · rw [if_pos hb]
        exact (h.serve_busy_other (List.mem_of_find?_eq_some hd) hda hb).quiet
      · rw [if_neg hb, serve_of_not_busy (eq_false_of_ne_true hb)]
        exact h.readNext_other hda hid
  | forward a =>
    rw [act_forward]
    cases hd : s.find? a with
    | none => exact h.quiet
    | some d =>
      exact (h.forward_other (List.mem_of_find?_eq_some hd) (h.apart_found hn hd).1).quiet

theorem act_own (h : Follows s.connections s.world.events address history due c)
    (ho : c.isOpen = true) {action : Action} (ha : action.address = address)
    (hb : ∀ a, action ≠ .arrive a)
    (hl : (Happening.action action).forwards address = true → s.lags address = false) :
    ∃ after, Follows (s.act action).connections (s.act action).world.events address
      (history ++ (s.notice? (.action action)).toList)
      (owe due (s.subscribes address (.action action)) (s.notice? (.action action))) after := by
  have hf : s.find? address = some c := by rw [find?_of_latest h.latest, if_pos ho]
  subst ha
  cases action with
  | arrive a => exact absurd rfl (hb a)
  | receive a bytes =>
    exact (h.alter_own (f := fun c => { c with input := c.input ++ bytes }) ho (fun _ => rfl)
      (fun _ => rfl) rfl fun hc => ⟨hc.promised, hc.sent, hc.first⟩).still
  | finish a =>
    exact (h.alter_own (f := fun c => { c with ended := true }) ho (fun _ => rfl) (fun _ => rfl)
      rfl fun hc => ⟨hc.promised, hc.sent, hc.first⟩).still
  | lose a =>
    have hf : s.find? a = some c := hf
    rw [act_lose, hf, Option.elim_some]
    exact (h.close_own ho h.latest.address_eq).still
  | serve a =>
    have hf : s.find? a = some c := hf
    show ∃ after, Follows _ _ _ (history ++ ((s.turn? a (.serve a)).bind _).toList)
      (owe due ((s.turn? a (.serve a)).any _) ((s.turn? a (.serve a)).bind _)) after
    rw [act_serve, turn?, if_pos rfl, hf, Option.elim_some, Option.bind_some]
    by_cases hb : c.subscription.isBusy = true
    · rw [if_pos hb]
      obtain ⟨after, hafter⟩ := h.serve_busy_own ho hb
      exact hafter.still
    · have hb : c.subscription.isBusy = false := eq_false_of_ne_true hb
      rw [hb, if_neg Bool.false_ne_true, serve_of_not_busy hb]
      exact h.readNext_own ho hb
  | forward a =>
    have hf : s.find? a = some c := hf
    rw [act_forward, hf, Option.elim_some]
    obtain ⟨after, hafter⟩ := h.forward_own ho (hl (decide_eq_true rfl))
    exact hafter.still

/-- **Whatever happens, the connection goes on following the stream.** -/
theorem happen (h : Follows s.connections s.world.events address history due c) {e : Happening}
    (ha : e.arrives address = false) (hl : (e.forwards address && s.lags address) = false) :
    ∃ after, Follows (s.happen e).connections (s.happen e).world.events address
      (history ++ (s.notice? e).toList) (owe due (s.subscribes address e) (s.notice? e)) after := by
  cases e with
  | elsewhere host =>
    exact h.still
  | action action =>
    by_cases hn : action.address = address
    case neg =>
      have hs : s.subscribes address (.action action) = false := by
        show (s.turn? address action).any Turn.subscribes = false
        rw [turn?_eq_none_of_other hn]
        rfl
      rw [hs, owe_of_not_asks rfl]
      exact ⟨c, h.act_other hn⟩
    case pos =>
      have hb : ∀ a, action ≠ .arrive a := by
        rintro a rfl
        exact absurd hn (of_decide_eq_false ha)
      by_cases ho : c.isOpen = true
      · refine h.act_own ho hn hb fun hf => ?_
        rwa [hf, Bool.true_and] at hl
      · have hf : s.find? address = none := by rw [find?_of_latest h.latest, if_neg ho]
        have hnotice : s.notice? (.action action) = none := by
          unfold notice?
          dsimp only
          rw [hn, turn?_of_not_find? hf]
          rfl
        have hs : s.subscribes address (.action action) = false := by
          unfold subscribes
          dsimp only
          rw [turn?_of_not_find? hf]
          rfl
        show ∃ after, Follows (s.act action).connections (s.act action).world.events _ _ _ _
        rw [hnotice, hs, act_of_not_find? (hn ▸ hf) hb]
        exact h.still

/-- **Over a whole run, what the connection is due is what has been announced.** -/
theorem run (h : Follows s.connections s.world.events address history due c)
    {run : List Happening} (ha : ∀ e ∈ run, e.arrives address = false)
    (hk : s.keepsUp address run = true) :
    ∃ after, Follows (s.after run).connections (s.after run).world.events address
      (history ++ s.announced run) (s.dueFrom address due run) after := by
  induction run generalizing s history due c with
  | nil =>
    have hd : s.dueFrom address due [] = due.map (· ++ []) := by
      cases due <;> rfl
    rw [hd]
    exact ⟨c, h.quiet⟩
  | cons e run ih =>
    have hke := Bool.and_eq_true_iff.1 hk
    have hl : (e.forwards address && s.lags address) = false := by
      rw [← Bool.not_eq_true']
      exact hke.1
    obtain ⟨after, he⟩ := h.happen (ha e List.mem_cons_self) hl
    rw [dueFrom_cons, announced, ← List.append_assoc]
    exact ih he (fun e he => ha e (List.mem_cons_of_mem _ he)) hke.2

/-- A connection that is accepted stands nowhere. -/
theorem arrive {registry : Registry} (hw : Wired s.connections s.world.events history)
    (hr : s.registry.insert? address = some registry) (hn : s.find? address = none) :
    Follows (s.act (.arrive address)).connections (s.act (.arrive address)).world.events address
      history none (.begin address greeting true) := by
  have hs : s.act (.arrive address) =
      { s with registry, connections := .begin address greeting true :: s.connections } := by
    unfold act Server.arrive
    dsimp only
    rw [hr]
  have hnew : Wired (s.act (.arrive address)).connections (s.act (.arrive address)).world.events
    history := hw.arrive address
  rw [hs] at hnew ⊢
  refine ⟨hnew, ?_, fun d _ _ id hid => (by cases hid), .stranger rfl rfl⟩
  refine .here rfl fun d hd hda => ?_
  have := List.find?_eq_none.1 hn d hd
  simpa [hda] using this

end Follows

end LineStore
