import Mathlib.Data.List.Nodup
import LineStore.Proofs.Server.Matching

/-!
# The register keeps count

A visit begins when a connection is admitted and is over when the connection is lost, hung up on or
asks to quit. The visits under way can be kept in a book of one's own (`Server.visits`), by who is
admitted, who leaves, which commands are carried out and which forwarders are started, without a
look at the register. The register is that book: `Tallied` holds at every point of a run
(`Tallied.happen`), as long as nobody is admitted from an address that is being served. All that is
said of the limit follows from it.

That the register is about the open connections is known already (`Server.Matched`), and so is how
far each of them is with getting events.
-/

namespace LineStore

/-- A connection that was admitted. -/
structure Visit where
  address : Address
  /-- The commands that were carried out for it, last first. -/
  commands : List Command
  /-- Whether its handler has started a forwarder. -/
  subscribed : Bool

namespace Visit

/-- The visit as the register has it. -/
def client (v : Visit) : Client := ⟨v.address, .ofNat v.commands.length, v.subscribed⟩

/-- The visits after those from an address are over. -/
def leave (address : Address) (visits : List Visit) : List Visit :=
  visits.filter (·.address ≠ address)

/-- The visits after a command was carried out for an address. -/
def carryOut (address : Address) (command : Command) (visits : List Visit) : List Visit :=
  visits.map fun v =>
    if v.address = address then { v with commands := command :: v.commands } else v

/-- The visits after a forwarder was started for an address. -/
def subscribe (address : Address) (visits : List Visit) : List Visit :=
  visits.map fun v => if v.address = address then { v with subscribed := true } else v

/-- The visits after the server has dealt with what a connection sent. -/
def deal (address : Address) (visits : List Visit) : Intake → List Visit
  | .wait => visits
  | .stop => leave address visits
  | .hangUp _ => leave address visits
  | .refuse _ _ => visits
  | .request command _ _ =>
    if command = .quit then leave address visits else carryOut address command visits

variable {visits : List Visit} {v : Visit} {address : Address} {command : Command}

theorem addresses_carryOut :
    (carryOut address command visits).map Visit.address = visits.map Visit.address := by
  rw [carryOut, List.map_map]
  refine List.map_congr_left fun v _ => ?_
  rw [Function.comp_apply]
  split <;> rfl

theorem addresses_subscribe :
    (subscribe address visits).map Visit.address = visits.map Visit.address := by
  rw [subscribe, List.map_map]
  refine List.map_congr_left fun v _ => ?_
  rw [Function.comp_apply]
  split <;> rfl

theorem leave_carryOut :
    leave address (carryOut address command visits) = leave address visits := by
  simp only [leave, carryOut, ne_eq, decide_not]
  induction visits with
  | nil => rfl
  | cons v rest ih => by_cases hv : v.address = address <;> simp [hv, ih]

end Visit

namespace Registry

open Visit

variable {r : Registry} {visits : List Visit} {address : Address}

/-! ## The register as a book of visits -/

theorem clients_erase (h : r.clients = visits.map client) :
    (r.erase address).clients = (leave address visits).map client := by
  rw [erase, h, leave, List.filter_map]
  rfl

theorem clients_record (h : r.clients = visits.map client) (command : Command) :
    (r.record address).clients = (carryOut address command visits).map client := by
  rw [record, update, h, carryOut, List.map_map, List.map_map]
  refine List.map_congr_left fun v _ => ?_
  by_cases ha : v.address = address
  · simp [client, ha, UInt64.ofNat_add]
  · simp [client, ha]

theorem clients_setSubscribed (h : r.clients = visits.map client) :
    (r.setSubscribed address true).clients = (subscribe address visits).map client := by
  rw [setSubscribed, update, h, subscribe, List.map_map, List.map_map]
  refine List.map_congr_left fun v _ => ?_
  by_cases ha : v.address = address
  · simp [client, ha]
  · simp [client, ha]

/-- Nobody is registered twice, so looking an address up finds its visit. -/
theorem get?_of_mem {v : Visit} (h : r.clients = visits.map client)
    (hd : (visits.map Visit.address).Nodup) (hv : v ∈ visits) :
    r.get? v.address = some v.client := by
  unfold get?
  rw [h, List.find?_map]
  cases hf : visits.find? ((fun c : Client => decide (c.address = v.address)) ∘ client) with
  | none => exact absurd (decide_eq_true rfl) (List.find?_eq_none.1 hf v hv)
  | some w =>
    have he := List.find?_some hf
    rw [List.inj_on_of_nodup_map hd (List.mem_of_find?_eq_some hf) hv (of_decide_eq_true he)]
    rfl

end Registry

namespace Server

variable {s : Server} {address : Address} {c : Connection}

/-! ## The book of visits -/

/-- The visits after something has happened. -/
def note (s : Server) (visits : List Visit) : Happening → List Visit
  | .action (.arrive address) =>
    if visits.length < s.config.maxClients then visits ++ [⟨address, [], false⟩] else visits
  | .action (.lose address) => Visit.leave address visits
  | .action (.serve address) =>
    (s.find? address).elim visits fun c =>
      match c.subscription with
      | .joined _ _ => visits
      | .confirmed _ => Visit.subscribe address visits
      | .absent => Visit.deal address visits (Intake.next s.limits c.ended c.input)
      | .forwarding _ _ => Visit.deal address visits (Intake.next s.limits c.ended c.input)
  | _ => visits

/-- The visits under way after a run. -/
def visits (s : Server) (visits : List Visit) : List Happening → List Visit
  | [] => visits
  | e :: run => (s.happen e).visits (s.note visits e) run

/-- Whether somebody is admitted from an address that is being served. -/
def clashes (s : Server) : Happening → Bool
  | .action (.arrive address) =>
    (s.registry.insert? address).isSome && (s.find? address).isSome
  | _ => false

/-- Whether nobody is, in the course of a run. -/
def apart (s : Server) : List Happening → Bool
  | [] => true
  | e :: run => !s.clashes e && (s.happen e).apart run

/-- The register is the book of visits. -/
structure Tallied (s : Server) (visits : List Visit) : Prop where
  registered : s.registry.clients = visits.map Visit.client
  limit : s.registry.limit = s.config.maxClients
  within : visits.length ≤ s.config.maxClients
  distinct : (visits.map Visit.address).Nodup
  matched : s.Matched
  /-- Who has asked for events, by the book. -/
  asked : ∀ v ∈ visits, s.asking? v.address = some (decide (.subscribe ∈ v.commands))

namespace Tallied

variable {visits : List Visit} {command : Command} {d : Connection}

theorem start (config : Config) (host : Host) : (Server.start config host).Tallied [] :=
  ⟨rfl, rfl, Nat.zero_le _, List.nodup_nil, .start config host, fun _ hv => nomatch hv⟩

theorem size_eq (h : s.Tallied visits) : s.registry.size = visits.length := by
  rw [Registry.size, h.registered, List.length_map]

/-- Who is not being served is not in the book. -/
theorem address_ne (h : s.Tallied visits) (hn : s.find? address = none) :
    ∀ v ∈ visits, v.address ≠ address := by
  rintro v hv rfl
  have hm := h.matched v.address
  rw [hn, Registry.get?_of_mem h.registered h.distinct hv] at hm
  cases hm

/-- A forwarder is started for who asks for events, and that is all that its handler does next. -/
theorem subscribed_eq (h : s.Tallied visits) {v : Visit} (hv : v ∈ visits) :
    v.subscribed = (decide (.subscribe ∈ v.commands) && !s.isBusy v.address) := by
  have hm := h.matched v.address
  have ha := h.asked v hv
  rw [Registry.get?_of_mem h.registered h.distinct hv] at hm
  rw [asking?] at ha
  rw [isBusy]
  cases hc : s.find? v.address with
  | none =>
    rw [hc] at hm
    cases hm
  | some c =>
    rw [hc] at hm ha
    have hs : c.subscription.isForwarding = v.subscribed := Option.some.inj hm
    have ho : c.observer.isSome = decide (.subscribe ∈ v.commands) := Option.some.inj ha
    rw [← hs, ← ho, Option.any_some, Connection.observer, c.subscription.isForwarding_eq]

theorem leave_eq (h : s.Tallied visits) (hn : s.find? address = none) :
    Visit.leave address visits = visits :=
  List.filter_eq_self.2 fun v hv => decide_eq_true (h.address_ne hn v hv)

/-- What leaves the register as it is, leaves the book as it is. -/
theorem same {t : Server} (h : s.Tallied visits) (hm : t.Matched) (hc : t.config = s.config)
    (hr : t.registry = s.registry) (ha : ∀ a, t.asking? a = s.asking? a) : t.Tallied visits :=
  ⟨hr ▸ h.registered, hc ▸ hr ▸ h.limit, hc ▸ h.within, h.distinct, hm,
    fun v hv => (ha v.address).trans (h.asked v hv)⟩

/-- Changing a connection, as far as the book is concerned. -/
theorem update (h : s.Tallied visits) {f : Connection → Connection}
    (hf : ∀ c, (f c).address = c.address) (ho : ∀ c, (f c).isOpen = c.isOpen)
    (hs : ∀ c, s.find? address = some c →
      (f c).subscription.isForwarding = c.subscription.isForwarding)
    (ha : ∀ c, s.find? address = some c → (f c).observer.isSome = c.observer.isSome) :
    (s.update address f).Tallied visits :=
  h.same (h.matched.update hf ho hs) rfl rfl (asking?_update hf ho ha)

theorem leave {t : Server} (h : s.Tallied visits) (hm : t.Matched) (hc : t.config = s.config)
    (hr : t.registry = s.registry.erase address)
    (ha : ∀ a, a ≠ address → t.asking? a = s.asking? a) :
    t.Tallied (Visit.leave address visits) where
  registered := by rw [hr, Registry.clients_erase h.registered]
  limit := by rw [hr, hc, ← h.limit]; rfl
  within := by
    rw [hc]
    exact (List.length_filter_le _ _).trans h.within
  distinct := h.distinct.sublist (List.filter_sublist.map _)
  matched := hm
  asked := fun v hv => by
    obtain ⟨hv, hn⟩ := List.mem_filter.1 hv
    rw [ha v.address (of_decide_eq_true hn), h.asked v hv]

theorem close (h : s.Tallied visits) (c : Connection) :
    (s.close c).Tallied (Visit.leave c.address visits) :=
  h.leave (h.matched.close c) rfl rfl fun _ hn => asking?_close_other hn

theorem carryOut {t : Server} (h : s.Tallied visits) (hm : t.Matched) (hc : t.config = s.config)
    (hr : t.registry = s.registry.record address)
    (hself : ∀ asked, s.asking? address = some asked →
      t.asking? address = some (asked || decide (command = .subscribe)))
    (hother : ∀ a, a ≠ address → t.asking? a = s.asking? a) :
    t.Tallied (Visit.carryOut address command visits) where
  registered := by rw [hr, Registry.clients_record h.registered]
  limit := by rw [hr, hc, ← h.limit]; rfl
  within := by
    rw [hc, Visit.carryOut, List.length_map]
    exact h.within
  distinct := by
    rw [Visit.addresses_carryOut]
    exact h.distinct
  matched := hm
  asked := by
    intro w hw
    obtain ⟨v, hv, rfl⟩ := List.mem_map.1 hw
    have hv := h.asked v hv
    split
    · rename_i he
      rw [he] at hv
      show t.asking? v.address = _
      rw [he, hself _ hv, ← Bool.decide_or]
      exact congrArg some (decide_eq_decide.2 (by rw [List.mem_cons, or_comm, eq_comm]))
    · rename_i hn
      rw [hother _ hn, hv]

theorem startForwarder (h : s.Tallied visits) (hc : s.find? c.address = some c)
    (ho : c.observer.isSome = true) (id : Nat) :
    (s.startForwarder c id).Tallied (Visit.subscribe c.address visits) where
  registered := Registry.clients_setSubscribed h.registered
  limit := h.limit
  within := by
    rw [Visit.subscribe, List.length_map]
    exact h.within
  distinct := by
    rw [Visit.addresses_subscribe]
    exact h.distinct
  matched := h.matched.startForwarder c id
  asked := by
    have ha : ∀ a, (s.startForwarder c id).asking? a = s.asking? a :=
      asking?_update (fun _ => rfl) (fun _ => rfl) fun d hd => by
        cases hc.symm.trans hd
        exact ho.symm
    intro w hw
    obtain ⟨v, hv, rfl⟩ := List.mem_map.1 hw
    split <;> exact (ha v.address).trans (h.asked v hv)

/-- A new visit is entered last, and its address is in the book once. -/
theorem enter {t : Server} {registry : Registry} (h : s.Tallied visits) (hm : t.Matched)
    (hc : t.config = s.config) (hr : s.registry.insert? address = some registry)
    (ht : t.registry = registry) (hn : s.find? address = none)
    (hself : t.asking? address = some false)
    (hother : ∀ a, a ≠ address → t.asking? a = s.asking? a) :
    t.Tallied (visits ++ [⟨address, [], false⟩]) := by
  have hfree : ¬ s.registry.limit ≤ s.registry.size := fun hf => by
    rw [Registry.insert?_eq_none_iff.2 hf] at hr
    cases hr
  rw [Registry.insert?, if_neg hfree] at hr
  cases hr
  constructor
  case registered =>
    have herase : (s.registry.erase address).clients = s.registry.clients := by
      rw [Registry.clients_erase h.registered, h.leave_eq hn, h.registered]
    rw [ht, List.map_append, ← h.registered, herase]
    rfl
  case limit => rw [ht, hc, ← h.limit]
  case within =>
    rw [hc, List.length_append, List.length_singleton]
    rw [h.limit, h.size_eq] at hfree
    omega
  case distinct =>
    rw [List.map_append, List.map_singleton, List.nodup_append]
    refine ⟨h.distinct, List.nodup_singleton _, ?_⟩
    rintro a ha b hb rfl
    obtain ⟨v, hv, rfl⟩ := List.mem_map.1 ha
    exact h.address_ne hn v hv (List.mem_singleton.1 hb)
  case matched => exact hm
  case asked =>
    intro v hv
    rcases List.mem_append.1 hv with hv | hv
    · rw [hother _ (h.address_ne hn v hv), h.asked v hv]
    · cases List.mem_singleton.1 hv
      exact hself

theorem arrive (h : s.Tallied visits) (hn : s.clashes (.action (.arrive address)) = false) :
    (s.arrive address).Tallied (if visits.length < s.config.maxClients then
      visits ++ [⟨address, [], false⟩] else visits) := by
  have hm : (s.arrive address).Matched := h.matched.arrive address
  rw [← h.size_eq, ← h.limit]
  unfold Server.arrive at hm ⊢
  cases hr : s.registry.insert? address with
  | none =>
    rw [hr] at hm
    rw [if_neg (Nat.not_lt.2 (Registry.insert?_eq_none_iff.1 hr))]
    refine h.same hm rfl rfl fun a => ?_
    show (List.find? _ (_ :: s.connections)).map _ = _
    rw [List.find?_cons_of_neg (by simp [Connection.begin])]
    rfl
  | some registry =>
    rw [hr] at hm
    have hfree : s.registry.size < s.registry.limit := by
      refine Nat.lt_of_not_le fun hf => ?_
      rw [Registry.insert?_eq_none_iff.2 hf] at hr
      cases hr
    rw [if_pos hfree]
    rw [clashes, hr, Option.isSome_some, Bool.true_and, Option.isSome_eq_false_iff,
      Option.isNone_iff_eq_none] at hn
    refine h.enter hm rfl hr rfl hn ?_ fun a ha => ?_
    · show (List.find? _ (_ :: s.connections)).map _ = _
      rw [List.find?_cons_of_pos (by simp [Connection.begin])]
      rfl
    · show (List.find? _ (_ :: s.connections)).map _ = _
      rw [List.find?_cons_of_neg (by simp [Connection.begin, ha.symm])]
      rfl

/-- A command adds to the visit that it is carried out for, or ends it. -/
theorem answer (h : s.Tallied visits) (hc : s.find? c.address = some d)
    (hs : d.subscription = c.subscription) (body : Option String) :
    (s.answer c command body).Tallied (if command = .quit then Visit.leave c.address visits
      else Visit.carryOut c.address command visits) := by
  have hm := h.matched.answer hc hs command body
  have hcfg := config_answer s c command body
  have hr := registry_answer s c command body
  have hother : ∀ a, a ≠ c.address → (s.answer c command body).asking? a = s.asking? a :=
    fun a hn => asking?_answer_other hn command body
  split
  · rename_i hq
    rw [if_pos hq] at hr
    -- The command is counted yet, in an entry that goes with the client.
    have hrecord : ((s.registry.record c.address).erase c.address).clients =
        (s.registry.erase c.address).clients := by
      rw [Registry.clients_erase (Registry.clients_record h.registered command),
        Visit.leave_carryOut, Registry.clients_erase h.registered]
    refine h.leave hm hcfg (hr.trans ?_) hother
    exact congrArg (Registry.mk · s.registry.limit) hrecord
  · rename_i hq
    rw [if_neg hq] at hr
    refine h.carryOut hm hcfg hr (fun asked ha => ?_) hother
    rw [asking?, hc] at ha
    cases ha
    exact asking?_answer_self hc hs hq body

theorem readNext (h : s.Tallied visits) (hc : s.find? c.address = some c) :
    (s.readNext c).Tallied
      (Visit.deal c.address visits (Intake.next s.limits c.ended c.input)) := by
  have hu : ∀ rest, (s.update c.address fun c => { c with input := rest }).Tallied visits :=
    fun rest => h.update (fun _ => rfl) (fun _ => rfl) (fun _ _ => rfl) fun _ _ => rfl
  have hs : ∀ {t : Server}, t.Tallied visits → ∀ reply,
      (t.send c.address (.reply reply)).Tallied visits :=
    fun ht reply => ht.update (fun _ => rfl) (fun _ => rfl) (fun _ _ => rfl) fun _ _ => rfl
  unfold Server.readNext
  cases Intake.next s.limits c.ended c.input with
  | wait => exact h
  | stop => exact h.close c
  | hangUp reply => exact (hs h reply).close c
  | refuse reply rest => exact hs (hu rest) reply
  | request command body rest =>
    have hd : (s.update c.address fun c => { c with input := rest }).find? c.address =
        some { c with input := rest } := by
      rw [find?_update_self, hc]
      · rfl
      all_goals exact fun _ => rfl
    exact (hu rest).answer hd rfl body

theorem serve (h : s.Tallied visits) (hc : s.find? c.address = some c) :
    (s.serve c).Tallied (s.note visits (.action (.serve c.address))) := by
  rw [note, hc, Option.elim_some]
  unfold Server.serve
  cases hs : c.subscription with
  | joined id reply =>
    refine h.update (fun _ => rfl) (fun _ => rfl) (fun d hd => ?_) fun d hd => ?_
    all_goals
      cases hc.symm.trans hd
      simp [hs, Connection.observer, Subscription.isForwarding, Subscription.observer?]
  | confirmed id => exact h.startForwarder hc (by rw [c.observer_eq hs]; rfl) id
  | absent | forwarding _ _ => exact h.readNext hc

/-- **What happens is noted in the register as it is in the book.** -/
theorem happen (h : s.Tallied visits) {e : Happening} (hn : s.clashes e = false) :
    (s.happen e).Tallied (s.note visits e) := by
  have hm := h.matched.happen e
  cases e with
  | elsewhere host => exact h.same hm rfl rfl fun _ => rfl
  | action action =>
    cases action with
    | arrive a => exact h.arrive hn
    | receive a bytes =>
      exact h.update (fun _ => rfl) (fun _ => rfl) (fun _ _ => rfl) fun _ _ => rfl
    | finish a => exact h.update (fun _ => rfl) (fun _ => rfl) (fun _ _ => rfl) fun _ _ => rfl
    | lose a =>
      show (s.act (.lose a)).Tallied (Visit.leave a visits)
      rw [act_lose]
      cases hc : s.find? a with
      | none =>
        rw [h.leave_eq hc]
        exact h
      | some c =>
        obtain ⟨rfl, -⟩ := address_of_find? hc
        exact h.close c
    | serve a =>
      show (s.act (.serve a)).Tallied _
      rw [act_serve]
      cases hc : s.find? a with
      | none =>
        rw [note, hc]
        exact h
      | some c =>
        obtain ⟨rfl, -⟩ := address_of_find? hc
        exact h.serve hc
    | forward a =>
      show (s.act (.forward a)).Tallied visits
      rw [act_forward]
      cases hc : s.find? a with
      | none => exact h
      | some c =>
        obtain ⟨rfl, -⟩ := address_of_find? hc
        exact h.same (h.matched.forward hc) (config_forward s c) (registry_forward s c)
          (asking?_forward hc)

theorem run (h : s.Tallied visits) {run : List Happening} (hn : s.apart run = true) :
    (s.after run).Tallied (s.visits visits run) := by
  induction run generalizing s visits with
  | nil => exact h
  | cons e run ih =>
    rw [apart, Bool.and_eq_true, Bool.not_eq_true'] at hn
    exact ih (h.happen hn.1) hn.2

end Tallied

/-! ## The limit -/

/-- What the limit on connections comes to at some moment, with the visits that are under way. -/
structure Limited (s : Server) (visits : List Visit) : Prop where
  /-- The register has each of the visits, with the number of its commands. -/
  registered : s.registry.clients = visits.map Visit.client
  /-- Who is registered is being served. -/
  connected : ∀ a, (s.registry.get? a).isSome = (s.find? a).isSome
  within : s.registry.size ≤ s.config.maxClients
  refused : ∀ a, (s.act (.arrive a)).sentTo a = [.reply tooMany] ↔
    s.registry.size = s.config.maxClients
  welcomed : ∀ a, (s.act (.arrive a)).sentTo a = [.reply greeting] ↔
    s.registry.size < s.config.maxClients
  /-- Who is turned away leaves no trace. -/
  untouched : ∀ a, s.registry.size = s.config.maxClients →
    (s.act (.arrive a)).registry = s.registry ∧ (s.act (.arrive a)).world = s.world ∧
      ∀ b, (s.act (.arrive a)).find? b = s.find? b
  others : ∀ action b, b ≠ action.address → (s.act action).registry.get? b = s.registry.get? b
  /-- Who has asked for events is counted, once its handler is through with that. -/
  subscribers : s.registry.subscribers =
    visits.countP fun v => decide (.subscribe ∈ v.commands) && !s.isBusy v.address

/-- Who arrives is sent one line, and it says whether there was room. -/
theorem sentTo_arrive (s : Server) (address : Address) :
    (s.act (.arrive address)).sentTo address =
      [.reply (if s.registry.size < s.registry.limit then greeting else tooMany)] := by
  show (s.arrive address).sentTo address = _
  unfold Server.arrive
  cases hr : s.registry.insert? address with
  | none =>
    rw [if_neg (Nat.not_lt.2 (Registry.insert?_eq_none_iff.1 hr))]
    simp [sentTo, Connection.begin]
  | some registry =>
    rw [if_pos]
    · simp [sentTo, Connection.begin]
    · refine Nat.lt_of_not_le fun hf => ?_
      rw [Registry.insert?_eq_none_iff.2 hf] at hr
      cases hr

theorem Tallied.toLimited {visits : List Visit} (h : s.Tallied visits) : s.Limited visits := by
  have hle : s.registry.size ≤ s.config.maxClients := h.size_eq ▸ h.within
  have hne : greeting ≠ tooMany := by decide
  have hline : ∀ r r' : Reply, [Output.reply r] = [Output.reply r'] ↔ r = r' := by simp
  constructor
  case registered => exact h.registered
  case connected =>
    intro a
    have hm := congrArg Option.isSome (h.matched a)
    rw [Option.isSome_map, Option.isSome_map] at hm
    exact hm.symm
  case within => exact hle
  case refused =>
    intro a
    rw [sentTo_arrive, h.limit, hline]
    split
    · exact iff_of_false hne (by omega)
    · exact iff_of_true rfl (by omega)
  case welcomed =>
    intro a
    rw [sentTo_arrive, h.limit, hline]
    split
    · exact iff_of_true rfl ‹_›
    · exact iff_of_false hne.symm ‹_›
  case untouched =>
    intro a hfull
    have hr : s.registry.insert? a = none :=
      Registry.insert?_eq_none_iff.2 (by rw [h.limit, hfull])
    show (s.arrive a).registry = _ ∧ (s.arrive a).world = _ ∧ ∀ b, (s.arrive a).find? b = _
    unfold Server.arrive
    rw [hr]
    refine ⟨rfl, rfl, fun b => ?_⟩
    show List.find? _ (_ :: s.connections) = _
    rw [List.find?_cons_of_neg (by simp [Connection.begin])]
    rfl
  case others => exact fun action b hn => get?_act_other action hn
  case subscribers =>
    rw [Registry.subscribers, h.registered, List.countP_map]
    refine List.countP_congr fun v hv => ?_
    show v.subscribed = true ↔ _
    rw [h.subscribed_eq hv]

/-- **The limit on connections is exact over whole runs**, in whatever order connections come, send,
are served and go, as long as nobody is admitted from an address that is being served. -/
theorem limited (config : Config) (host : Host) (run : List Happening)
    (hn : (start config host).apart run = true) :
    ((start config host).after run).Limited ((start config host).visits [] run) :=
  ((Tallied.start config host).run hn).toLimited

/-- One client fills the server and asks for events twice, others are turned away, and one is
admitted when the first has quit. -/
theorem limited_one_client :
    let first : Address := .v4 #v[127, 0, 0, 1] 1
    let second : Address := .v4 #v[127, 0, 0, 1] 2
    let config : Config :=
      { documentsRoot := "/d", settingsRoot := "/d", dictionariesRoot := "/d", maxClients := 1 }
    let run : List Happening := [.action (.arrive first), .action (.arrive second)] ++
      exchange first "SUBSCRIBE\nSUBSCRIBE\n" 4
    let quit : List Happening := exchange first "QUIT\n" 1 ++ [.action (.arrive second)]
    let full := (start config .fresh).after run
    full.Limited ((start config .fresh).visits [] run) ∧
      full.registry.clients = [⟨first, 2, true⟩] ∧
      (full.sentTo second).map Output.toWire = [tooMany.toWire] ∧
      (full.after quit).registry.clients = [⟨second, 0, false⟩] := by
  intro first second config run quit full
  exact ⟨limited config .fresh run (by decide +kernel), by decide +kernel, by decide +kernel,
    by decide +kernel⟩

end Server
end LineStore
