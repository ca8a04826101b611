import LineStore.Proofs.Events.Stream
import LineStore.Proofs.Server.Account

/-!
# The events of a server

A run of a server is a list of happenings: its own actions, and what becomes of the machine that it
runs on. Of these only a save that succeeds sends out an event, its announcement
(`Server.notice?`, `Stores.events_handle`). So the ring of a server has at any moment carried just
the announcements of the run (`Wired.run`), and it gives each number of an observer away once.
-/

namespace LineStore

/-- Something that happens to a server, or to the machine it runs on. -/
inductive Happening
  | action (action : Action)
  /-- Time goes by, or somebody else changes files. -/
  | elsewhere (host : Host)

namespace Turn

/-- The event that a turn sends out, which is that of a save that succeeded. -/
def event? (stores : Stores) (world : World) : Turn → Option Event
  | dispatch (.putSettings key level client length) body =>
    if (stores.handle (.putSettings key level client length) body world).1.status = .success then
      some (Settings.announcement key level client world.host.now).event
    else none
  | _ => none

end Turn

namespace Server

def happen (s : Server) : Happening → Server
  | .action action => s.act action
  | .elsewhere host => { s with world := { s.world with host } }

/-- The server after a run. -/
def after (s : Server) (run : List Happening) : Server := run.foldl happen s

/-- The event that is sent out when something happens. -/
def notice? (s : Server) : Happening → Option Event
  | .action action => (s.turn? action.address action).bind (·.event? s.stores s.world)
  | .elsewhere _ => none

/-- The events that are sent out in the course of a run. -/
def announced (s : Server) : List Happening → List Event
  | [] => []
  | e :: run => (s.notice? e).toList ++ (s.happen e).announced run

end Server

/-! ## What a command does to the ring -/

theorem Settings.now_keep (store : Settings) (key level content client : String) (host : Host) :
    (store.keep key level content client host).2.now = host.now := by
  unfold keep
  split
  · rfl
  · split
    · rfl
    · split
      · rfl
      · rename_i path _ _ _ _
        generalize hw : host.writeAtomic path _ .replace = result
        obtain ⟨outcome, made⟩ := result
        have hn : made.now = host.now := by
          have := congrArg (fun r => r.2.now) hw
          exact this.symm
        cases outcome <;> exact hn

/-- **A command sends out the event of its save, or nothing.** -/
theorem Stores.events_handle (stores : Stores) (command : Command) (body : Option String)
    (world : World) :
    (stores.handle command body world).2.events =
      ((Turn.dispatch command body).event? stores world).elim world.events world.events.emit := by
  cases command with
  | putSettings key level client length =>
    have hn := Settings.now_keep stores.settings key level (body.getD "") client world.host
    cases hk : stores.settings.keep key level (body.getD "") client world.host with
    | mk outcome host =>
      rw [hk] at hn
      cases outcome with
      | ok _ =>
        have hn : host.now = world.host.now := hn
        simp [Turn.event?, handle, Settings.save, hk, replyToSave, Reply.ofMessage, Sink.announce,
          Ring.sink]
        rw [hn]
      | error e =>
        simp [Turn.event?, handle, Settings.save, hk, replyToSave, refuse, Reply.ofFailure]
  | _ => rfl

/-! ## Numbers and the stream -/

/-- What the connections and the ring of a server agree on, after these events. -/
structure Wired (connections : List Connection) (ring : Ring) (history : List Event) : Prop where
  carries : ring.Carries history
  known : ∀ d ∈ connections, ∀ id, d.observer = some id → id < ring.joined

namespace Server

variable {s : Server} {address other : Address} {d : Connection} {f : Connection → Connection}

theorem mem_update (h : d ∈ (s.update other f).connections) :
    ∃ e ∈ s.connections, d = e ∨ d = f e ∧ e.address = other := by
  obtain ⟨e, he, rfl⟩ := List.mem_map.1 h
  refine ⟨e, he, ?_⟩
  by_cases hc : e.address = other ∧ e.isOpen = true
  · rw [if_pos hc]
    exact .inr ⟨rfl, hc.1⟩
  · rw [if_neg hc]
    exact .inl rfl

theorem members_update (hf : ∀ d, (f d).address = d.address)
    (ho : ∀ d, (f d).observer = d.observer) :
    ∀ d ∈ (s.update other f).connections,
      ∃ e ∈ s.connections, d.address = e.address ∧ d.observer = e.observer := by
  intro d hd
  obtain ⟨e, he, rfl | ⟨rfl, _⟩⟩ := mem_update hd
  · exact ⟨d, he, rfl, rfl⟩
  · exact ⟨e, he, hf e, ho e⟩

theorem update_of_not_find? (h : s.find? address = none) (f : Connection → Connection) :
    s.update address f = s := by
  have hm : s.connections.map (fun c => if c.address = address ∧ c.isOpen = true then f c else c) =
      s.connections := by
    refine (List.map_congr_left fun c hc => ?_).trans (List.map_id _)
    have hn := List.find?_eq_none.1 h c hc
    rw [Bool.and_eq_true, decide_eq_true_eq] at hn
    exact if_neg hn
  unfold update
  rw [hm]

/-- Nothing happens where there is no open connection. -/
theorem act_of_not_find? {action : Action} (h : s.find? action.address = none)
    (hb : ∀ a, action ≠ .arrive a) : s.act action = s := by
  cases action with
  | arrive a => exact absurd rfl (hb a)
  | receive a bytes => exact update_of_not_find? h _
  | finish a => exact update_of_not_find? h _
  | lose a =>
    have h : s.find? a = none := h
    rw [act_lose, h, Option.elim_none]
  | serve a =>
    have h : s.find? a = none := h
    rw [act_serve, h, Option.elim_none]
  | forward a =>
    have h : s.find? a = none := h
    rw [act_forward, h, Option.elim_none]

theorem turn?_of_not_find? (h : s.find? address = none) (action : Action) :
    s.turn? address action = none := by
  cases action with
  | serve a =>
    unfold turn?
    rw [h]
    exact ite_self _
  | _ => rfl

end Server

namespace Wired

open Server

variable {s : Server} {ring : Ring} {other : Address} {history : List Event} {d : Connection}
  {f : Connection → Connection}

theorem update (h : Wired s.connections ring history) (hf : ∀ d, (f d).observer = d.observer) :
    Wired (s.update other f).connections ring history := by
  refine ⟨h.carries, fun d hd id hid => ?_⟩
  obtain ⟨e, he, rfl | ⟨rfl, _⟩⟩ := mem_update hd
  · exact h.known d he id hid
  · exact h.known e he id (hf e ▸ hid)

/-- A connection goes on with getting events, at a place that the ring knows. -/
theorem proceed (h : Wired s.connections ring history) {id : Nat} (hid : id < ring.joined)
    (hs : ∀ d, (f d).observer = some id) : Wired (s.update other f).connections ring history := by
  refine ⟨h.carries, fun e he j hj => ?_⟩
  obtain ⟨b, hb, rfl | ⟨rfl, _⟩⟩ := mem_update he
  · exact h.known e hb j hj
  · cases (hs b).symm.trans hj
    exact hid

theorem join (h : Wired s.connections s.world.events history) (d : Connection) (reply : Reply) :
    Wired (s.join d reply).connections (s.join d reply).world.events history := by
  have hr : Wired s.connections s.world.events.subscribe.2 history :=
    ⟨h.carries.subscribe, fun e he id hid => Nat.lt_succ_of_lt (h.known e he id hid)⟩
  exact hr.proceed (Nat.lt_succ_self _) fun _ => rfl

theorem close (h : Wired s.connections s.world.events history) (d : Connection) :
    Wired (s.close d).connections (s.close d).world.events history := by
  have hu : Wired (s.update d.address fun c => { c with isOpen := false }).connections
      s.world.events history := h.update fun _ => rfl
  unfold Server.close
  cases d.observer with
  | none => exact hu
  | some id => exact ⟨hu.carries.unsubscribe id, hu.known⟩

theorem receive (h : Wired s.connections ring history) (id : Nat) :
    Wired s.connections (ring.receive id).2 history := by
  refine ⟨h.carries.receive id, ?_⟩
  rw [Ring.joined_receive]
  exact h.known

theorem forward (h : Wired s.connections s.world.events history) (hd : d ∈ s.connections) :
    Wired (s.forward d).connections (s.forward d).world.events history := by
  unfold Server.forward
  cases hs : d.subscription with
  | absent | joined _ _ | confirmed _ => exact h
  | forwarding id hand =>
    have hid : id < s.world.events.joined := h.known d hd id (d.observer_eq hs)
    cases hand with
    | some event => exact h.proceed hid fun _ => rfl
    | none =>
      dsimp only
      split
      · refine (h.receive id).proceed ?_ fun _ => rfl
        rw [Ring.joined_receive]
        exact hid
      · exact h.receive id

theorem emit {connections : List Connection} (h : Wired connections ring history)
    (event? : Option Event) :
    Wired connections (event?.elim ring ring.emit) (history ++ event?.toList) := by
  cases event? with
  | none => simpa using h
  | some event => exact ⟨h.carries.emit event, h.known⟩

/-- No event is sent out. -/
theorem quiet {connections : List Connection} (h : Wired connections ring history) :
    Wired connections ring (history ++ []) := by
  rwa [List.append_nil]

theorem answer (h : Wired s.connections s.world.events history) (d : Connection)
    (command : Command) (body : Option String) :
    Wired (s.answer d command body).connections (s.answer d command body).world.events
      (history ++ ((Turn.dispatch command body).event? s.stores s.world).toList) := by
  have he := h.emit ((Turn.dispatch command body).event? s.stores s.world)
  rw [← Stores.events_handle s.stores command body s.world] at he
  unfold Server.answer
  generalize s.stores.handle command body s.world = result at he ⊢
  obtain ⟨reply, world⟩ := result
  have hs : Wired (({ s with world, registry := s.registry.record d.address } : Server).send
      d.address (.reply reply)).connections world.events _ := he.update fun _ => rfl
  dsimp only
  split
  · split
    · exact hs
    · exact join (s := { s with world, registry := s.registry.record d.address })
        ⟨he.carries, he.known⟩ d reply
  · exact hs.close d
  · exact hs

theorem readNext (h : Wired s.connections s.world.events history) (d : Connection) :
    Wired (s.readNext d).connections (s.readNext d).world.events (history ++
      ((Intake.next s.limits d.ended d.input).turn?.bind (·.event? s.stores s.world)).toList) := by
  have hu : ∀ rest, Wired (s.update d.address fun c => { c with input := rest }).connections
      s.world.events history := fun rest => h.update fun _ => rfl
  unfold Server.readNext
  cases Intake.next s.limits d.ended d.input with
  | wait => exact h.quiet
  | stop => exact (h.close d).quiet
  | hangUp reply =>
    exact (close (s := s.send d.address (.reply reply)) (h.update fun _ => rfl) d).quiet
  | refuse reply rest =>
    have hs : Wired ((s.update d.address fun c => { c with input := rest }).send d.address
        (.reply reply)).connections s.world.events history := (hu rest).update fun _ => rfl
    exact hs.quiet
  | request command body rest =>
    exact answer (s := s.update d.address fun c => { c with input := rest }) (hu rest) d command
      body

/-- A handler that is busy with a request for events sends none out. -/
theorem serve_busy (h : Wired s.connections s.world.events history) (hd : d ∈ s.connections)
    (hb : d.subscription.isBusy = true) :
    Wired (s.serve d).connections (s.serve d).world.events history := by
  unfold Server.serve
  cases hs : d.subscription with
  | absent | forwarding _ _ => rw [hs] at hb; cases hb
  | joined id reply =>
    have hid : id < s.world.events.joined := h.known d hd id (d.observer_eq hs)
    exact h.proceed hid fun _ => rfl
  | confirmed id =>
    have hid : id < s.world.events.joined := h.known d hd id (d.observer_eq hs)
    exact h.proceed hid fun _ => rfl

theorem arrive (h : Wired s.connections s.world.events history) (other : Address) :
    Wired (s.arrive other).connections (s.arrive other).world.events history := by
  have hnew : ∀ e : Connection, e.observer = none →
      Wired (e :: s.connections) s.world.events history := by
    intro e heo
    refine ⟨h.carries, fun d hd id hid => ?_⟩
    rcases List.mem_cons.1 hd with rfl | hd
    · rw [heo] at hid
      cases hid
    · exact h.known d hd id hid
  unfold Server.arrive
  split
  · exact hnew _ rfl
  · exact hnew _ rfl

/-- **What happens adds its event to the stream, and nothing else.** -/
theorem happen (h : Wired s.connections s.world.events history) (e : Happening) :
    Wired (s.happen e).connections (s.happen e).world.events
      (history ++ (s.notice? e).toList) := by
  cases e with
  | elsewhere host => exact h.quiet
  | action action =>
    cases action with
    | arrive a => exact (h.arrive a).quiet
    | receive a bytes =>
      have hu : Wired (s.act (.receive a bytes)).connections s.world.events history :=
        h.update fun _ => rfl
      exact hu.quiet
    | finish a =>
      have hu : Wired (s.act (.finish a)).connections s.world.events history :=
        h.update fun _ => rfl
      exact hu.quiet
    | lose a =>
      show Wired (s.act (.lose a)).connections (s.act (.lose a)).world.events (history ++ [])
      rw [act_lose]
      cases s.find? a with
      | none => exact h.quiet
      | some d => exact (h.close d).quiet
    | serve a =>
      show Wired (s.act (.serve a)).connections (s.act (.serve a)).world.events
        (history ++ ((s.turn? a (.serve a)).bind _).toList)
      rw [act_serve, turn?, if_pos rfl]
      cases hd : s.find? a with
      | none => exact h.quiet
      | some d =>
        rw [Option.elim_some, Option.bind_some]
        by_cases hb : d.subscription.isBusy = true
        · rw [if_pos hb]
          exact (h.serve_busy (List.mem_of_find?_eq_some hd) hb).quiet
        · rw [if_neg hb, serve_of_not_busy (eq_false_of_ne_true hb)]
          exact h.readNext d
    | forward a =>
      show Wired (s.act (.forward a)).connections (s.act (.forward a)).world.events (history ++ [])
      rw [act_forward]
      cases hd : s.find? a with
      | none => exact h.quiet
      | some d => exact (h.forward (List.mem_of_find?_eq_some hd)).quiet

theorem start (config : Config) (host : Host) :
    Wired (Server.start config host).connections (Server.start config host).world.events [] :=
  ⟨Ring.carries_ofCapacity _, fun _ h => by cases h⟩

/-- **The ring of a server has carried the announcements of its run.** -/
theorem run (h : Wired s.connections s.world.events history) (run : List Happening) :
    Wired (s.after run).connections (s.after run).world.events (history ++ s.announced run) := by
  induction run generalizing s history with
  | nil => exact h.quiet
  | cons e run ih =>
    rw [announced, ← List.append_assoc]
    exact ih (h.happen e)

end Wired
end LineStore
