import LineStore.Proofs.Server.Turns
import LineStore.Server.Connection

/-!
# One connection among many

Connections are looked up by their address. An address can come again, so its latest connection is
what an action for it is about, provided that the earlier ones have ended: `Latest`. Of the actions
of a server, those for other addresses leave that connection as it is (`latest_act_other`). What
those for its own do to it is said by `latest_receive`, `latest_finish`, `latest_serve`,
`latest_serve_busy` and `latest_forward`.
-/

namespace LineStore

/-- The latest connection from an address; earlier ones have ended. -/
inductive Latest (address : Address) (c : Connection) : List Connection → Prop
  | here {earlier : List Connection} (hc : c.address = address)
      (he : ∀ d ∈ earlier, d.address = address → d.isOpen = false) : Latest address c (c :: earlier)
  | there {d : Connection} {connections : List Connection} (hd : d.address ≠ address)
      (h : Latest address c connections) : Latest address c (d :: connections)

namespace Latest

variable {address : Address} {c : Connection} {connections : List Connection}

theorem address_eq (h : Latest address c connections) : c.address = address := by
  induction h with
  | here hc => exact hc
  | there _ _ ih => exact ih

theorem find?_eq (h : Latest address c connections) :
    connections.find? (·.address = address) = some c := by
  induction h with
  | here hc => rw [List.find?_cons_of_pos (by simpa using hc)]
  | there hd _ ih => rw [List.find?_cons_of_neg (by simpa using hd), ih]

theorem find?_open (h : Latest address c connections) :
    connections.find? (fun d => d.address = address && d.isOpen) =
      if c.isOpen = true then some c else none := by
  induction h with
  | here hc he =>
    by_cases ho : c.isOpen = true
    · rw [List.find?_cons_of_pos (by simp [hc, ho]), if_pos ho]
    · rw [List.find?_cons_of_neg (by simp [ho]), if_neg ho, List.find?_eq_none]
      intro d hd hs
      rw [Bool.and_eq_true, decide_eq_true_eq] at hs
      rw [he d hd hs.1] at hs
      cases hs.2
  | there hd _ ih => rw [List.find?_cons_of_neg (by simp [hd]), ih]

/-- A change of the connection from one address. -/
theorem map (h : Latest address c connections) (other : Address) {f : Connection → Connection}
    (hf : ∀ d, (f d).address = d.address) :
    Latest address (if c.address = other ∧ c.isOpen = true then f c else c)
      (connections.map fun d => if d.address = other ∧ d.isOpen = true then f d else d) := by
  have ha : ∀ d : Connection,
      (if d.address = other ∧ d.isOpen = true then f d else d).address = d.address := by
    intro d
    split
    · exact hf d
    · rfl
  induction h with
  | here hc he =>
    rw [List.map_cons]
    refine .here ((ha c).trans hc) ?_
    intro d hd hda
    obtain ⟨e, hm, rfl⟩ := List.mem_map.1 hd
    have ho := he e hm ((ha e).symm.trans hda)
    simp [ho]
  | there hd _ ih =>
    rw [List.map_cons]
    exact .there (fun he => hd ((ha _).symm.trans he)) ih

end Latest

/-- The address that an action is about. -/
def Action.address : Action → Address
  | arrive a => a
  | receive a _ => a
  | finish a => a
  | lose a => a
  | serve a => a
  | forward a => a

namespace Connection

/-- The replies that the connection was sent, in order. -/
def replies (c : Connection) : List Reply := c.sent.reverse.filterMap Output.reply?

theorem replies_reply (c : Connection) (r : Reply) :
    { c with sent := .reply r :: c.sent }.replies = c.replies ++ [r] := by
  simp [replies, Output.reply?]

theorem replies_event (c : Connection) (e : Event) :
    { c with sent := .event e :: c.sent }.replies = c.replies := by
  simp [replies, Output.reply?]

/-- The replies that the connection was sent or is to be sent yet, in order. -/
def promised (c : Connection) : List Reply := c.replies ++ c.subscription.reply?.toList

variable {c : Connection}

theorem reply?_of_not_busy (h : c.subscription.isBusy = false) : c.subscription.reply? = none := by
  cases hs : c.subscription with
  | joined id reply => rw [hs] at h; cases h
  | absent | confirmed _ | forwarding _ _ => rfl

theorem promised_of_not_busy (h : c.subscription.isBusy = false) : c.promised = c.replies := by
  rw [promised, reply?_of_not_busy h]
  exact List.append_nil _

/-- A reply to somebody who is to be sent no other. -/
theorem promised_reply (h : c.subscription.isBusy = false) (r : Reply) :
    { c with sent := .reply r :: c.sent }.promised = c.promised ++ [r] := by
  rw [promised_of_not_busy h, ← replies_reply]
  exact promised_of_not_busy h

end Connection

/-- How many steps the handler takes for the request for events, apart from its turn. -/
def Subscription.delay : Subscription → Nat
  | absent => 2
  | joined _ _ => 2
  | confirmed _ => 1
  | forwarding _ _ => 0

theorem Subscription.delay_le (subscription : Subscription) : subscription.delay ≤ 2 := by
  cases subscription with
  | absent | joined _ _ => exact Nat.le_refl 2
  | confirmed _ => exact Nat.le_succ 1
  | forwarding _ _ => exact Nat.zero_le 2

namespace Server

variable {s : Server} {address : Address} {c : Connection}

theorem act_lose (s : Server) (address : Address) :
    s.act (.lose address) = (s.find? address).elim s s.close := by
  unfold act
  dsimp only
  cases s.find? address <;> rfl

theorem act_serve (s : Server) (address : Address) :
    s.act (.serve address) = (s.find? address).elim s s.serve := by
  unfold act
  dsimp only
  cases s.find? address <;> rfl

theorem act_forward (s : Server) (address : Address) :
    s.act (.forward address) = (s.find? address).elim s s.forward := by
  unfold act
  dsimp only
  cases s.find? address <;> rfl

theorem find?_of_latest (h : Latest address c s.connections) :
    s.find? address = if c.isOpen = true then some c else none := h.find?_open

theorem address_of_find? (h : s.find? address = some c) :
    c.address = address ∧ c.isOpen = true := by
  have := List.find?_some h
  rw [Bool.and_eq_true, decide_eq_true_eq] at this
  exact this

theorem latest_update_other (h : Latest address c s.connections) {other : Address}
    (hn : other ≠ address) {f : Connection → Connection} (hf : ∀ d, (f d).address = d.address) :
    Latest address c (s.update other f).connections := by
  have hm := h.map other hf
  rwa [if_neg fun hc => hn (hc.1.symm.trans h.address_eq)] at hm

theorem latest_update (h : Latest address c s.connections) (ho : c.isOpen = true)
    {f : Connection → Connection} (hf : ∀ d, (f d).address = d.address) :
    Latest address (f c) (s.update address f).connections := by
  have hm := h.map address hf
  rwa [if_pos ⟨h.address_eq, ho⟩] at hm

theorem latest_update_closed (h : Latest address c s.connections) (ho : ¬ c.isOpen = true)
    {f : Connection → Connection} (hf : ∀ d, (f d).address = d.address) :
    Latest address c (s.update address f).connections := by
  have hm := h.map address hf
  rwa [if_neg fun hc => ho hc.2] at hm

/-! ## Actions for other addresses -/

section Other

variable {d : Connection}

theorem latest_send_other (h : Latest address c s.connections) (hd : d.address ≠ address)
    (output : Output) : Latest address c (s.send d.address output).connections :=
  latest_update_other h hd fun _ => rfl

theorem latest_close_other (h : Latest address c s.connections) (hd : d.address ≠ address) :
    Latest address c (s.close d).connections := by
  unfold close
  exact latest_update_other h hd fun _ => rfl

theorem latest_join_other (h : Latest address c s.connections) (hd : d.address ≠ address)
    (reply : Reply) : Latest address c (s.join d reply).connections := by
  unfold join
  exact latest_update_other h hd fun _ => rfl

theorem latest_answer_other (h : Latest address c s.connections) (hd : d.address ≠ address)
    (command : Command) (body : Option String) :
    Latest address c (s.answer d command body).connections := by
  unfold answer
  dsimp only
  split
  · split
    · exact latest_send_other h hd _
    · exact latest_join_other (s := { s with
        world := (s.stores.handle command body s.world).2
        registry := s.registry.record d.address }) h hd _
  · exact latest_close_other (latest_send_other h hd _) hd
  · exact latest_send_other h hd _

theorem latest_readNext_other (h : Latest address c s.connections) (hd : d.address ≠ address) :
    Latest address c (s.readNext d).connections := by
  unfold readNext
  split
  · exact h
  · exact latest_close_other h hd
  · exact latest_close_other (latest_send_other h hd _) hd
  · refine latest_send_other ?_ hd _
    exact latest_update_other h hd fun _ => rfl
  · refine latest_answer_other ?_ hd _ _
    exact latest_update_other h hd fun _ => rfl

theorem latest_serve_other (h : Latest address c s.connections) (hd : d.address ≠ address) :
    Latest address c (s.serve d).connections := by
  unfold serve
  split
  · exact latest_update_other h hd fun _ => rfl
  · exact latest_update_other h hd fun _ => rfl
  · exact latest_readNext_other h hd
  · exact latest_readNext_other h hd

theorem latest_forward_other (h : Latest address c s.connections) (hd : d.address ≠ address) :
    Latest address c (s.forward d).connections := by
  unfold forward
  split
  · exact latest_update_other h hd fun _ => rfl
  · dsimp only
    split
    · exact latest_update_other h hd fun _ => rfl
    · exact h
  · exact h

/-- **What happens to others leaves a connection as it is.** -/
theorem latest_act_other (h : Latest address c s.connections) {action : Action}
    (ha : action.address ≠ address) : Latest address c (s.act action).connections := by
  -- Whoever is found for the action comes from its address.
  have hfound : ∀ f : Connection → Server,
      (∀ d, d.address ≠ address → Latest address c (f d).connections) →
      Latest address c ((s.find? action.address).elim s f).connections := by
    intro f hf
    cases hd : s.find? action.address with
    | none => exact h
    | some d => exact hf d ((address_of_find? hd).1 ▸ ha)
  cases action with
  | arrive other =>
    unfold act arrive
    dsimp only
    split <;> exact .there ha h
  | receive other bytes => exact latest_update_other h ha fun _ => rfl
  | finish other => exact latest_update_other h ha fun _ => rfl
  | lose other =>
    rw [act_lose]
    exact hfound _ fun _ => latest_close_other h
  | serve other =>
    rw [act_serve]
    exact hfound _ fun _ => latest_serve_other h
  | forward other =>
    rw [act_forward]
    exact hfound _ fun _ => latest_forward_other h

end Other

/-! ## Its own actions -/

theorem latest_receive (h : Latest address c s.connections) (ho : c.isOpen = true)
    (bytes : Bytes) :
    Latest address { c with input := c.input ++ bytes }
      (s.act (.receive address bytes)).connections :=
  latest_update (f := fun c => { c with input := c.input ++ bytes }) h ho fun _ => rfl

theorem latest_finish (h : Latest address c s.connections) (ho : c.isOpen = true) :
    Latest address { c with ended := true } (s.act (.finish address)).connections :=
  latest_update (f := fun c => { c with ended := true }) h ho fun _ => rfl

/-- Nothing happens to a connection that has ended. -/
theorem latest_act_closed (h : Latest address c s.connections) (ho : ¬ c.isOpen = true)
    {action : Action} (ha : action.address = address) (hb : ∀ other, action ≠ .arrive other) :
    Latest address c (s.act action).connections := by
  have hf : s.find? address = none := by rw [find?_of_latest h, if_neg ho]
  cases action with
  | arrive other => exact absurd rfl (hb other)
  | receive other bytes =>
    cases ha
    exact latest_update_closed h ho fun _ => rfl
  | finish other =>
    cases ha
    exact latest_update_closed h ho fun _ => rfl
  | lose other =>
    have ha : other = address := ha
    rw [act_lose, ha, hf]
    exact h
  | serve other =>
    have ha : other = address := ha
    rw [act_serve, ha, hf]
    exact h
  | forward other =>
    have ha : other = address := ha
    rw [act_forward, ha, hf]
    exact h

theorem latest_send (h : Latest address c s.connections) (ho : c.isOpen = true)
    (output : Output) :
    Latest address { c with sent := output :: c.sent } (s.send address output).connections :=
  latest_update (f := fun c => { c with sent := output :: c.sent }) h ho fun _ => rfl

theorem latest_close (h : Latest address c s.connections) (ho : c.isOpen = true) {d : Connection}
    (hd : d.address = address) :
    Latest address { c with isOpen := false } (s.close d).connections := by
  cases hd
  unfold close
  exact latest_update (f := fun c => { c with isOpen := false }) h ho fun _ => rfl

theorem latest_subscription (h : Latest address c s.connections) (ho : c.isOpen = true)
    (subscription : Subscription) :
    Latest address { c with subscription }
      (s.update address fun c => { c with subscription }).connections :=
  latest_update (f := fun c => { c with subscription }) h ho fun _ => rfl

end Server

/-! ## A turn -/

/-- The reply to a request. -/
def Turn.reply (stores : Stores) (world : World) : Turn → Reply
  | dispatch command body => (stores.handle command body world).1
  | decline reply => reply

namespace Stores

variable {stores : Stores} {command : Command} {body : Option String} {world : World}

theorem status_handOut_ne_close (result : Except StoreError String) :
    (handOut result).status ≠ .close := by
  cases result <;> exact fun h => by cases h

/-- A connection is ended by one command only. -/
theorem status_handle_eq_close_iff :
    (stores.handle command body world).1.status = .close ↔ command = .quit := by
  constructor
  · intro h
    cases command with
    | quit => rfl
    | getSettings | data | list | get | put => exact absurd h (status_handOut_ne_close _)
    | putSettings key level client length =>
      simp only [handle, replyToSave] at h
      split at h <;> cases h
    | delete name =>
      simp only [handle, replyToDelete] at h
      split at h <;> cases h
    | subscribe | ready | malformed | unknown => cases h
  · rintro rfl
    rfl

end Stores

/-- What a turn does to a connection: it is sent the reply or is to be sent it, and goes on with the
bytes after the request or ends. -/
structure Connection.Turned (reply : Turn → Reply) (intake : Intake) (c after : Connection) : Prop
    where
  ended : after.ended = c.ended
  promised : after.promised = c.promised ++ (intake.turn?.map reply).toList
  isOpen : after.isOpen = intake.onward?.isSome
  input : ∀ rest ∈ intake.onward?, after.input = rest
  /-- Nobody leaves in the middle of a request for events. -/
  free : after.isOpen = false → after.subscription.isBusy = false
  delay : after.subscription.delay ≤ c.subscription.delay

/-- A command is carried out for a connection that has only what comes after it. -/
theorem Connection.Turned.of_request {reply : Turn → Reply} {c after : Connection}
    {command : Command} {body : Option String} (he : after.ended = c.ended)
    (hi : after.input = c.input)
    (hp : after.promised = c.promised ++ [reply (.dispatch command body)])
    (ho : after.isOpen = decide (command ≠ .quit))
    (hf : after.isOpen = false → after.subscription.isBusy = false)
    (hd : after.subscription.delay ≤ c.subscription.delay) :
    c.Turned reply (.request command body c.input) after := by
  refine ⟨he, hp, ?_, fun rest hm => ?_, hf, hd⟩
  · rw [ho, Intake.onward?]
    split <;> simp_all
  · simp only [Intake.onward?] at hm
    split at hm
    · cases hm
    · cases hm
      exact hi

/-- What a step does to a connection that is no turn of it. -/
structure Connection.Kept (c after : Connection) : Prop where
  ended : after.ended = c.ended
  input : after.input = c.input
  isOpen : after.isOpen = c.isOpen
  promised : after.promised = c.promised

namespace Server

variable {s : Server} {address : Address} {c : Connection}

theorem latest_answer (h : Latest address c s.connections) (ho : c.isOpen = true)
    (hb : c.subscription.isBusy = false) {d : Connection} (hd : d.address = address)
    (hs : d.subscription = c.subscription) (command : Command) (body : Option String) :
    ∃ after, Latest address after (s.answer d command body).connections ∧
      c.Turned (·.reply s.stores s.world) (.request command body c.input) after := by
  cases hd
  have hc : (s.stores.handle command body s.world).1.status = .close ↔ command = .quit :=
    Stores.status_handle_eq_close_iff
  have hreply : (Turn.dispatch command body).reply s.stores s.world =
      (s.stores.handle command body s.world).1 := rfl
  unfold answer
  dsimp only
  generalize s.stores.handle command body s.world = result at hc hreply ⊢
  obtain ⟨reply, world⟩ := result
  dsimp only at hc hreply ⊢
  generalize ht : ({ s with world, registry := s.registry.record d.address } : Server) = t
  have hl : Latest d.address c t.connections := by
    rw [← ht]
    exact h
  have hsent : Latest d.address { c with sent := .reply reply :: c.sent }
      (t.send d.address (.reply reply)).connections := latest_send hl ho _
  have hpromised : { c with sent := .reply reply :: c.sent }.promised =
      c.promised ++ [(Turn.dispatch command body).reply s.stores s.world] := by
    rw [hreply]
    exact c.promised_reply hb reply
  split
  · rename_i hr
    have hq : command ≠ .quit := fun hq => by rw [hc.2 hq] at hr; cases hr
    split
    · exact ⟨_, hsent, .of_request rfl rfl hpromised (by simp [ho, hq]) (fun _ => hb)
        (Nat.le_refl _)⟩
    · rename_i hf
      have habsent : c.subscription = .absent := by
        rw [hs] at hf
        cases hsub : c.subscription with
        | absent => rfl
        | joined _ _ | confirmed _ => rw [hsub] at hb; cases hb
        | forwarding _ _ => rw [hsub] at hf; exact absurd rfl hf
      refine ⟨_, latest_subscription hl ho _, .of_request rfl rfl ?_ (by simp [ho, hq]) ?_ ?_⟩
      · rw [Connection.promised_of_not_busy hb, hreply]
        rfl
      · exact fun hclosed => by rw [ho] at hclosed; cases hclosed
      · rw [habsent]
        exact Nat.le_refl _
  · rename_i hr
    exact ⟨_, latest_close hsent ho rfl, .of_request rfl rfl hpromised (by simp [hc.1 hr])
      (fun _ => hb) (Nat.le_refl _)⟩
  · rename_i hn
    have hq : command ≠ .quit := fun hq => hn (hc.2 hq)
    exact ⟨_, hsent, .of_request rfl rfl hpromised (by simp [ho, hq]) (fun _ => hb)
      (Nat.le_refl _)⟩

/-- A handler that is not busy with a request for events reads on. -/
theorem serve_of_not_busy (hb : c.subscription.isBusy = false) : s.serve c = s.readNext c := by
  unfold serve
  cases hs : c.subscription with
  | absent | forwarding _ _ => rfl
  | joined _ _ | confirmed _ => rw [hs] at hb; cases hb

/-- **A connection that is served has its turn.** -/
theorem latest_serve (h : Latest address c s.connections) (ho : c.isOpen = true)
    (hb : c.subscription.isBusy = false) (hw : Intake.next s.limits c.ended c.input ≠ .wait) :
    ∃ after, Latest address after (s.act (.serve address)).connections ∧
      c.Turned (·.reply s.stores s.world) (Intake.next s.limits c.ended c.input) after := by
  obtain rfl := h.address_eq
  have hs : s.act (.serve c.address) = s.readNext c := by
    rw [act_serve, find?_of_latest h, if_pos ho]
    exact serve_of_not_busy hb
  have hu : ∀ rest, Latest c.address { c with input := rest }
      (s.update c.address fun c => { c with input := rest }).connections := fun rest =>
    latest_update (f := fun c => { c with input := rest }) h ho fun _ => rfl
  rw [hs, readNext]
  generalize Intake.next s.limits c.ended c.input = intake at hw ⊢
  cases intake with
  | wait => exact absurd rfl hw
  | stop =>
    refine ⟨_, latest_close h ho rfl, ?_⟩
    exact ⟨rfl, (List.append_nil _).symm, rfl, fun _ hr => (by cases hr), fun _ => hb,
      Nat.le_refl _⟩
  | hangUp reply =>
    refine ⟨_, latest_close (latest_send h ho (.reply reply)) ho rfl, ?_⟩
    exact ⟨rfl, c.promised_reply hb reply, rfl, fun _ hr => (by cases hr), fun _ => hb,
      Nat.le_refl _⟩
  | refuse reply rest =>
    refine ⟨_, latest_send (hu rest) ho (.reply reply), ?_⟩
    exact ⟨rfl, c.promised_reply hb reply, ho, fun _ hr => (by cases hr; rfl), fun _ => hb,
      Nat.le_refl _⟩
  | request command body rest =>
    obtain ⟨after, hl, ht⟩ := latest_answer (hu rest) ho hb rfl rfl command body
    exact ⟨after, hl, ht.ended, ht.promised, ht.isOpen, ht.input, ht.free, ht.delay⟩

/-- A connection that has to wait is left as it is. -/
theorem act_serve_of_wait (h : Latest address c s.connections)
    (hb : c.subscription.isBusy = false) (hw : Intake.next s.limits c.ended c.input = .wait) :
    s.act (.serve address) = s := by
  rw [act_serve, find?_of_latest h]
  by_cases ho : c.isOpen = true
  · rw [if_pos ho, Option.elim_some, serve_of_not_busy hb, readNext, hw]
  · rw [if_neg ho, Option.elim_none]

/-- **A handler that is busy with a request for events goes on with that.** -/
theorem latest_serve_busy (h : Latest address c s.connections) (ho : c.isOpen = true)
    (hb : c.subscription.isBusy = true) :
    ∃ after, Latest address after (s.act (.serve address)).connections ∧ c.Kept after ∧
      after.subscription.delay + 1 = c.subscription.delay := by
  obtain rfl := h.address_eq
  have hs : s.act (.serve c.address) = s.serve c := by
    rw [act_serve, find?_of_latest h, if_pos ho]
    rfl
  rw [hs, serve]
  cases hsub : c.subscription with
  | absent | forwarding _ _ => rw [hsub] at hb; cases hb
  | joined id reply =>
    refine ⟨_, latest_update
      (f := fun c => { c with sent := .reply reply :: c.sent, subscription := .confirmed id }) h ho
      fun _ => rfl, ⟨rfl, rfl, rfl, ?_⟩, rfl⟩
    rw [Connection.promised, Connection.promised, hsub]
    exact (List.append_nil _).trans (c.replies_reply reply)
  | confirmed id =>
    refine ⟨_, latest_subscription h ho (.forwarding id none), ⟨rfl, rfl, rfl, ?_⟩, rfl⟩
    rw [Connection.promised, Connection.promised, hsub]
    rfl

theorem latest_forward (h : Latest address c s.connections) (ho : c.isOpen = true) :
    ∃ after, Latest address after (s.act (.forward address)).connections ∧ c.Kept after := by
  obtain rfl := h.address_eq
  have hs : s.act (.forward c.address) = s.forward c := by
    rw [act_forward, find?_of_latest h, if_pos ho]
    rfl
  have hc : ∃ after, Latest c.address after s.connections ∧ c.Kept after :=
    ⟨c, h, ⟨rfl, rfl, rfl, rfl⟩⟩
  rw [hs, forward]
  cases hsub : c.subscription with
  | absent | joined _ _ | confirmed _ => exact hc
  | forwarding id hand =>
    have hpromised : c.promised = c.replies := c.promised_of_not_busy (by rw [hsub]; rfl)
    cases hand with
    | some event =>
      have hl := latest_update (f := fun c =>
        { c with sent := .event event :: c.sent, subscription := .forwarding id none })
        h ho fun _ => rfl
      refine ⟨_, hl, ⟨rfl, rfl, rfl, ?_⟩⟩
      rw [hpromised]
      exact (List.append_nil _).trans (c.replies_event event)
    | none =>
      dsimp only
      generalize s.world.events.receive id = result
      obtain ⟨receipt, events⟩ := result
      cases receipt with
      | event event =>
        refine ⟨_, latest_subscription (s := { s with world := { s.world with events } }) h ho
          (.forwarding id (some event)), ⟨rfl, rfl, rfl, ?_⟩⟩
        rw [hpromised]
        exact List.append_nil _
      | empty | gone | lagged => exact hc

end Server
end LineStore
