import Mathlib.Data.List.Find
import LineStore.Proofs.Server.Observers

/-!
# The register and the open connections

Whoever is registered has an open connection, and the register says of a client that it has
subscribed as soon as the handler has started its forwarder (`Matched`). That is kept by whatever
happens (`Matched.happen`) and needs nothing of the addresses: each step changes one client of the
register and one connection, and both are looked up by their address.

Who has asked for events is known before the register is told: from the command on
(`asking?_answer_self`), while the handler is busy with the reply and the forwarder (`isBusy`).
-/

namespace LineStore

/-- Changing elements that a search does not tell from the changed ones. -/
theorem find?_map_ite {α : Type} {p : α → Bool} {q : α → Prop} [DecidablePred q] {f : α → α}
    (hp : ∀ x, q x → p (f x) = p x) (xs : List α) :
    (xs.map fun x => if q x then f x else x).find? p =
      (xs.find? p).map fun x => if q x then f x else x := by
  have hc : p ∘ (fun x => if q x then f x else x) = p := by
    funext x
    rw [Function.comp_apply]
    split
    · rw [hp x ‹_›]
    · rfl
  rw [List.find?_map, hc]

namespace Registry

variable {r : Registry} {address other : Address} {f : Client → Client}

/-! ## The register, one address at a time -/

theorem get?_erase_other (hn : other ≠ address) :
    (r.erase address).get? other = r.get? other := by
  unfold get? erase
  rw [List.find?_filter]
  congr 1
  funext c
  by_cases hc : c.address = other
  · simp [hc, hn]
  · simp [hc]

@[simp] theorem get?_erase_self : (r.erase address).get? address = none := by
  simp [get?, erase]

theorem get?_update_other (hf : ∀ c, (f c).address = c.address) (hn : other ≠ address) :
    (r.update address f).get? other = r.get? other := by
  unfold get? update
  rw [find?_map_ite fun c _ => by rw [hf]]
  refine (Option.map_congr fun c hc => ?_).trans Option.map_id_apply
  have he := List.find?_some hc
  rw [if_neg fun ha => hn ((of_decide_eq_true he).symm.trans ha), id]

theorem get?_update_self (hf : ∀ c, (f c).address = c.address) :
    (r.update address f).get? address = (r.get? address).map f := by
  unfold get? update
  rw [find?_map_ite fun c _ => by rw [hf]]
  refine Option.map_congr fun c hc => ?_
  have he := List.find?_some hc
  rw [if_pos (of_decide_eq_true he)]

theorem get?_insert?_other {registry : Registry} (h : r.insert? address = some registry)
    (hn : other ≠ address) : registry.get? other = r.get? other := by
  unfold insert? at h
  split at h
  · cases h
  · cases h
    have he : (r.erase address).get? other = r.get? other := get?_erase_other hn
    unfold get? at he ⊢
    rw [List.find?_append, he]
    simp [hn.symm]

theorem get?_insert?_self {registry : Registry} (h : r.insert? address = some registry) :
    registry.get? address = some ⟨address, 0, false⟩ := by
  unfold insert? at h
  split at h
  · cases h
  · cases h
    have he : (r.erase address).get? address = none := get?_erase_self
    unfold get? at he ⊢
    rw [List.find?_append, he]
    simp

theorem insert?_eq_none_iff : r.insert? address = none ↔ r.limit ≤ r.size := by
  unfold insert?
  split <;> simp_all

end Registry

namespace Server

variable {s : Server} {address other : Address} {c : Connection} {f : Connection → Connection}

/-! ## Open connections, one address at a time -/

theorem find?_update_other (hf : ∀ c, (f c).address = c.address) (hn : other ≠ address) :
    (s.update address f).find? other = s.find? other := by
  unfold find? update
  rw [find?_map_ite fun c hc => by simp [hf, hc.1, hn.symm]]
  refine (Option.map_congr fun c hc => ?_).trans Option.map_id_apply
  rw [if_neg fun ha => hn ((address_of_find? hc).1.symm.trans ha.1), id]

theorem find?_update_self (hf : ∀ c, (f c).address = c.address)
    (ho : ∀ c, (f c).isOpen = c.isOpen) :
    (s.update address f).find? address = (s.find? address).map f := by
  unfold find? update
  rw [find?_map_ite fun c _ => by rw [hf, ho]]
  refine Option.map_congr fun c hc => ?_
  rw [if_pos (address_of_find? hc)]

theorem find?_close_self : (s.close c).find? c.address = none := by
  refine List.find?_eq_none.2 fun d hd => ?_
  obtain ⟨e, -, rfl⟩ := List.mem_map.1 hd
  split
  · simp
  · rename_i hn
    simpa using hn

theorem find?_close_other (hn : other ≠ c.address) : (s.close c).find? other = s.find? other :=
  find?_update_other (fun _ => rfl) hn

/-- What is seen of the connections stays if it stays of the one that is changed. -/
theorem map_find?_update {α : Type} {view : Connection → α} (hf : ∀ c, (f c).address = c.address)
    (ho : ∀ c, (f c).isOpen = c.isOpen)
    (hv : ∀ c, s.find? address = some c → view (f c) = view c) (a : Address) :
    ((s.update address f).find? a).map view = (s.find? a).map view := by
  by_cases ha : a = address
  · subst ha
    rw [find?_update_self hf ho, Option.map_map]
    exact Option.map_congr fun c hc => hv c hc
  · rw [find?_update_other hf ha]

/-! ## What a step does to the register -/

/-- What a command does to the register. -/
theorem registry_answer (s : Server) (c : Connection) (command : Command) (body : Option String) :
    (s.answer c command body).registry =
      if command = .quit then (s.registry.record c.address).erase c.address
      else s.registry.record c.address := by
  have hclose : (s.stores.handle command body s.world).1.status = .close ↔ command = .quit :=
    Stores.status_handle_eq_close_iff
  unfold Server.answer
  generalize s.stores.handle command body s.world = result at hclose ⊢
  obtain ⟨reply, world⟩ := result
  dsimp only at hclose ⊢
  split
  · rename_i hs
    have hq : command ≠ .quit := fun h => by
      rw [hclose.2 h] at hs
      cases hs
    rw [if_neg hq]
    split <;> rfl
  · rename_i hs
    rw [if_pos (hclose.1 hs)]
    rfl
  · rename_i hn
    rw [if_neg fun h => hn (hclose.2 h)]
    rfl

theorem registry_forward (s : Server) (c : Connection) :
    (s.forward c).registry = s.registry := by
  unfold Server.forward
  cases c.subscription with
  | absent | joined _ _ | confirmed _ => rfl
  | forwarding id hand =>
    cases hand with
    | some event => rfl
    | none =>
      dsimp only
      split <;> rfl

theorem get?_answer_other (hn : other ≠ c.address) (command : Command) (body : Option String) :
    (s.answer c command body).registry.get? other = s.registry.get? other := by
  have hrecord : (s.registry.record c.address).get? other = s.registry.get? other :=
    Registry.get?_update_other (fun _ => rfl) hn
  rw [registry_answer]
  split
  · rw [Registry.get?_erase_other hn, hrecord]
  · exact hrecord

theorem get?_readNext_other (hn : other ≠ c.address) :
    (s.readNext c).registry.get? other = s.registry.get? other := by
  unfold Server.readNext
  cases Intake.next s.limits c.ended c.input with
  | wait | refuse => rfl
  | stop | hangUp => exact Registry.get?_erase_other hn
  | request command body rest =>
    exact get?_answer_other (s := s.update c.address _) hn command body

/-- **What happens to one connection leaves the register of the others as it is.** -/
theorem get?_act_other (action : Action) (hn : other ≠ action.address) :
    (s.act action).registry.get? other = s.registry.get? other := by
  cases action with
  | arrive a =>
    show (s.arrive a).registry.get? other = _
    unfold Server.arrive
    cases hr : s.registry.insert? a with
    | none => rfl
    | some registry => exact Registry.get?_insert?_other hr hn
  | receive a bytes => rfl
  | finish a => rfl
  | lose a =>
    rw [act_lose]
    cases hc : s.find? a with
    | none => rfl
    | some c =>
      obtain ⟨rfl, -⟩ := address_of_find? hc
      exact Registry.get?_erase_other hn
  | serve a =>
    rw [act_serve]
    cases hc : s.find? a with
    | none => rfl
    | some c =>
      obtain ⟨rfl, -⟩ := address_of_find? hc
      show (s.serve c).registry.get? other = _
      unfold Server.serve
      cases c.subscription with
      | joined id reply => rfl
      | confirmed id => exact Registry.get?_update_other (fun _ => rfl) hn
      | absent | forwarding _ _ => exact get?_readNext_other hn
  | forward a =>
    rw [act_forward]
    cases s.find? a with
    | none => rfl
    | some c => exact congrArg (Registry.get? · other) (registry_forward s c)

/-! ## The register and the open connections -/

/-- The open connections are the registered ones, and have forwarders if the register says so. -/
def Matched (s : Server) : Prop :=
  ∀ a, (s.find? a).map (·.subscription.isForwarding) = (s.registry.get? a).map (·.subscribed)

namespace Matched

variable {d : Connection}

theorem start (config : Config) (host : Host) : (Server.start config host).Matched := fun _ => rfl

theorem update (h : s.Matched) (hf : ∀ c, (f c).address = c.address)
    (ho : ∀ c, (f c).isOpen = c.isOpen)
    (hs : ∀ c, s.find? address = some c →
      (f c).subscription.isForwarding = c.subscription.isForwarding) :
    (s.update address f).Matched := fun a => (map_find?_update hf ho hs a).trans (h a)

theorem close (h : s.Matched) (c : Connection) : (s.close c).Matched := by
  intro a
  show ((s.close c).find? a).map _ = ((s.registry.erase c.address).get? a).map _
  by_cases ha : a = c.address
  · subst ha
    rw [find?_close_self, Registry.get?_erase_self]
    rfl
  · rw [find?_close_other ha, Registry.get?_erase_other ha, h a]

theorem record (h : s.Matched) (address : Address) (world : World) :
    ({ s with world, registry := s.registry.record address } : Server).Matched := by
  intro a
  show (s.find? a).map _ = ((s.registry.record address).get? a).map _
  rw [h a]
  by_cases ha : a = address
  · subst ha
    rw [Registry.record, Registry.get?_update_self, Option.map_map]
    · rfl
    · exact fun _ => rfl
  · rw [Registry.record, Registry.get?_update_other _ ha]
    exact fun _ => rfl

theorem startForwarder (h : s.Matched) (c : Connection) (id : Nat) :
    (s.startForwarder c id).Matched := by
  intro a
  show ((s.update c.address _).find? a).map _ =
    ((s.registry.setSubscribed c.address true).get? a).map _
  by_cases ha : a = c.address
  · subst ha
    rw [find?_update_self, Registry.setSubscribed, Registry.get?_update_self, Option.map_map,
      Option.map_map]
    · have := congrArg (Option.map fun _ => true) (h c.address)
      rwa [Option.map_map, Option.map_map] at this
    all_goals exact fun _ => rfl
  · rw [find?_update_other _ ha, Registry.setSubscribed, Registry.get?_update_other _ ha, h a]
    all_goals exact fun _ => rfl

theorem answer (h : s.Matched) (hc : s.find? c.address = some d)
    (hs : d.subscription = c.subscription) (command : Command) (body : Option String) :
    (s.answer c command body).Matched := by
  unfold Server.answer
  generalize s.stores.handle command body s.world = result
  obtain ⟨reply, world⟩ := result
  have hr := h.record c.address world
  have hsent : (({ s with world, registry := s.registry.record c.address } : Server).send c.address
      (.reply reply)).Matched := hr.update (fun _ => rfl) (fun _ => rfl) fun _ _ => rfl
  dsimp only
  split
  · split
    · exact hsent
    · rename_i hn
      refine hr.update (fun _ => rfl) (fun _ => rfl) fun e he => ?_
      cases hc.symm.trans he
      rw [hs]
      exact (eq_false_of_ne_true hn).symm
  · exact Matched.close hsent c
  · exact hsent

theorem readNext (h : s.Matched) (hc : s.find? c.address = some c) : (s.readNext c).Matched := by
  have hu : ∀ rest, (s.update c.address fun c => { c with input := rest }).Matched := fun rest =>
    h.update (fun _ => rfl) (fun _ => rfl) fun _ _ => rfl
  have hs : ∀ {t : Server}, t.Matched → ∀ reply, (t.send c.address (.reply reply)).Matched :=
    fun ht reply => ht.update (fun _ => rfl) (fun _ => rfl) fun _ _ => rfl
  unfold Server.readNext
  cases Intake.next s.limits c.ended c.input with
  | wait => exact h
  | stop => exact h.close c
  | hangUp reply => exact (hs h reply).close c
  | refuse reply rest => exact hs (hu rest) reply
  | request command body rest =>
    have hd : (s.update c.address fun c => { c with input := rest }).find? c.address =
        some { c with input := rest } := by
      rw [find?_update_self, hc]
      · rfl
      all_goals exact fun _ => rfl
    exact (hu rest).answer hd rfl command body

/-- A step of a connection that has no forwarder, or has one, and so it stays. -/
theorem proceed (h : s.Matched) (hc : s.find? c.address = some c)
    (hf : ∀ c, (f c).address = c.address) (ho : ∀ c, (f c).isOpen = c.isOpen)
    (hs : (f c).subscription.isForwarding = c.subscription.isForwarding) :
    (s.update c.address f).Matched := by
  refine h.update hf ho fun d hd => ?_
  cases hc.symm.trans hd
  exact hs

theorem serve (h : s.Matched) (hc : s.find? c.address = some c) : (s.serve c).Matched := by
  unfold Server.serve
  cases hs : c.subscription with
  | joined id reply => exact h.proceed hc (fun _ => rfl) (fun _ => rfl) (by rw [hs]; rfl)
  | confirmed id => exact h.startForwarder c id
  | absent | forwarding _ _ => exact h.readNext hc

theorem forward (h : s.Matched) (hc : s.find? c.address = some c) : (s.forward c).Matched := by
  unfold Server.forward
  cases hs : c.subscription with
  | absent | joined _ _ | confirmed _ => exact h
  | forwarding id hand =>
    cases hand with
    | some event => exact h.proceed hc (fun _ => rfl) (fun _ => rfl) (by rw [hs]; rfl)
    | none =>
      dsimp only
      split
      · refine proceed (s := { s with world := _ }) h hc (fun _ => rfl) (fun _ => rfl) ?_
        rw [hs]
        rfl
      · exact h

theorem arrive (h : s.Matched) (address : Address) : (s.arrive address).Matched := by
  intro a
  unfold Server.arrive
  cases hr : s.registry.insert? address with
  | none =>
    show (List.find? _ (_ :: s.connections)).map _ = (s.registry.get? a).map _
    rw [List.find?_cons_of_neg (by simp [Connection.begin])]
    exact h a
  | some registry =>
    show (List.find? _ (_ :: s.connections)).map _ = (registry.get? a).map _
    by_cases ha : address = a
    · subst ha
      rw [List.find?_cons_of_pos (by simp [Connection.begin]), Registry.get?_insert?_self hr]
      rfl
    · rw [List.find?_cons_of_neg (by simp [Connection.begin, ha]),
        Registry.get?_insert?_other hr (Ne.symm ha)]
      exact h a

/-- **The register and the open connections belong together**, whatever happens. -/
theorem happen (h : s.Matched) (e : Happening) : (s.happen e).Matched := by
  cases e with
  | elsewhere host => exact h
  | action action =>
    show (s.act action).Matched
    cases action with
    | arrive a => exact h.arrive a
    | receive a bytes => exact h.update (fun _ => rfl) (fun _ => rfl) fun _ _ => rfl
    | finish a => exact h.update (fun _ => rfl) (fun _ => rfl) fun _ _ => rfl
    | lose a =>
      rw [act_lose]
      cases s.find? a with
      | none => exact h
      | some c => exact h.close c
    | serve a =>
      rw [act_serve]
      cases hc : s.find? a with
      | none => exact h
      | some c =>
        obtain ⟨rfl, -⟩ := address_of_find? hc
        exact h.serve hc
    | forward a =>
      rw [act_forward]
      cases hc : s.find? a with
      | none => exact h
      | some c =>
        obtain ⟨rfl, -⟩ := address_of_find? hc
        exact h.forward hc

end Matched

/-! ## Who has asked for events -/

/-- Whether the handler of the connection from an address is busy with the request for events. -/
def isBusy (s : Server) (address : Address) : Bool :=
  (s.find? address).any (·.subscription.isBusy)

/-- Whether the connection from an address has asked for events, if there is one. -/
def asking? (s : Server) (address : Address) : Option Bool :=
  (s.find? address).map (·.observer.isSome)

theorem asking?_update (hf : ∀ c, (f c).address = c.address) (ho : ∀ c, (f c).isOpen = c.isOpen)
    (hs : ∀ c, s.find? address = some c → (f c).observer.isSome = c.observer.isSome) (a : Address) :
    (s.update address f).asking? a = s.asking? a := map_find?_update hf ho hs a

theorem asking?_close_other (hn : other ≠ c.address) :
    (s.close c).asking? other = s.asking? other := by
  rw [asking?, find?_close_other hn, asking?]

/-- Nobody asks for events by another's command. -/
theorem asking?_answer_other (hn : other ≠ c.address) (command : Command) (body : Option String) :
    (s.answer c command body).asking? other = s.asking? other := by
  unfold Server.answer
  generalize s.stores.handle command body s.world = result
  obtain ⟨reply, world⟩ := result
  have hu : ∀ {t : Server}, t.connections = s.connections → ∀ {f : Connection → Connection},
      (∀ c, (f c).address = c.address) →
      (t.update c.address f).asking? other = s.asking? other := by
    intro t ht f hf
    rw [asking?, find?_update_other hf hn, find?, ht]
    rfl
  dsimp only
  split
  · split
    · exact hu rfl fun _ => rfl
    · exact @hu { s with world, registry := s.registry.record c.address } rfl _ fun _ => rfl
  · rw [asking?_close_other hn]
    exact hu rfl fun _ => rfl
  · exact hu rfl fun _ => rfl

/-- **Who asks for events has asked from then on**, with the command itself and not with the reply
or the forwarder. -/
theorem asking?_answer_self {d : Connection} {command : Command}
    (hc : s.find? c.address = some d) (hs : d.subscription = c.subscription)
    (hq : command ≠ .quit) (body : Option String) :
    (s.answer c command body).asking? c.address =
      some (d.observer.isSome || decide (command = .subscribe)) := by
  have hquit : (s.stores.handle command body s.world).1.status = .close ↔ command = .quit :=
    Stores.status_handle_eq_close_iff
  have hsubscribe : (s.stores.handle command body s.world).1.status = .subscribe ↔
      command = .subscribe := by
    rw [Stores.status_handle_eq_subscribe_iff]
    cases command <;> simp [Turn.subscribes]
  unfold Server.answer
  generalize s.stores.handle command body s.world = result at hquit hsubscribe ⊢
  obtain ⟨reply, world⟩ := result
  dsimp only at hquit hsubscribe ⊢
  have hu : ∀ {t : Server}, t.connections = s.connections → ∀ {f : Connection → Connection},
      (∀ c, (f c).address = c.address) → (∀ c, (f c).isOpen = c.isOpen) →
      (t.update c.address f).asking? c.address = some (f d).observer.isSome := by
    intro t ht f hf ho
    rw [asking?, find?_update_self hf ho, find?, ht, ← find?, hc]
    rfl
  split
  · rename_i hr
    rw [decide_eq_true (hsubscribe.1 hr), Bool.or_true]
    split
    · rename_i hforwarding
      have hsent := @hu { s with world, registry := s.registry.record c.address } rfl
        (fun c => { c with sent := .reply reply :: c.sent }) (fun _ => rfl) fun _ => rfl
      refine hsent.trans (congrArg some ?_)
      rw [← hs, d.subscription.isForwarding_eq, Bool.and_eq_true] at hforwarding
      exact hforwarding.1
    · exact @hu { s with world, registry := s.registry.record c.address } rfl _ (fun _ => rfl)
        fun _ => rfl
  · exact absurd (hquit.1 ‹_›) hq
  · rename_i hr _
    rw [decide_eq_false fun he => hr (hsubscribe.2 he), Bool.or_false]
    exact hu rfl (fun _ => rfl) fun _ => rfl

theorem asking?_forward (hc : s.find? c.address = some c) (a : Address) :
    (s.forward c).asking? a = s.asking? a := by
  unfold Server.forward
  cases hs : c.subscription with
  | absent | joined _ _ | confirmed _ => rfl
  | forwarding id hand =>
    have hobs : ∀ d, s.find? c.address = some d → d.observer.isSome = true := fun d hd => by
      cases hc.symm.trans hd
      rw [c.observer_eq hs]
      rfl
    cases hand with
    | some event =>
      refine asking?_update ?_ ?_ ?_ a
      · exact fun _ => rfl
      · exact fun _ => rfl
      · exact fun d hd => (hobs d hd).symm
    | none =>
      dsimp only
      split
      · refine asking?_update ?_ ?_ ?_ a
        · exact fun _ => rfl
        · exact fun _ => rfl
        · exact fun d hd => (hobs d hd).symm
      · rfl

end Server
end LineStore
