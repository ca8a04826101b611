import LineStore.Proofs.Events.Stream
import LineStore.Proofs.Settings.Announced

/-!
# Every event is accounted for

To one observer of a ring only three things matter: that an event is sent, that it asks for one
itself, and that it leaves (`Concern`). What it is given follows from these by a rule that knows no
positions and no other observers, only **the events that it has not received yet** (`meet`): it is
given the oldest of them, or, if there are more than the ring holds, told how many of the oldest it
has lost. A ring keeps to the rule whatever happens to it (`Sees.act`, and over a run `Sees.run`).
That all events are accounted for is then a matter of the rule alone (`accounts_watch`).
-/

namespace LineStore

/-- The receipts, in order, account for exactly these events: each of them is received once, or
counted once as lost. -/
inductive Accounts : List Receipt → List Event → Prop
  | done : Accounts [] []
  | event (event : Event) {given : List Receipt} {events : List Event} (h : Accounts given events) :
      Accounts (.event event :: given) (event :: events)
  | lagged (lost : List Event) {given : List Receipt} {events : List Event}
      (h : Accounts given events) : Accounts (.lagged lost.length :: given) (lost ++ events)
  | empty {given : List Receipt} {events : List Event} (h : Accounts given events) :
      Accounts (.empty :: given) events
  | gone {given : List Receipt} {events : List Event} (h : Accounts given events) :
      Accounts (.gone :: given) events

namespace Ring

/-! ## What happens to a ring -/

/-- Something that is done with a ring. -/
inductive Action
  | subscribe
  | unsubscribe (id : Nat)
  | emit (event : Event)
  /-- A setting is saved on a host, and the ring is what the saves are announced to. -/
  | save (store : Settings) (key level content client : String) (host : Host)
  | receive (id : Nat)

/-- The event that an action sends, if it sends one: a save does if it succeeds. -/
def Action.emission? : Action → Option Event
  | emit event => some event
  | save store key level content client host =>
    Settings.Made.event?
      ⟨key, level, content, client, host.now, (store.keep key level content client host).1⟩
  | _ => none

/-- The ring after an action. -/
def act (ring : Ring) : Action → Ring
  | .subscribe => ring.subscribe.2
  | .unsubscribe id => ring.unsubscribe id
  | .emit event => ring.emit event
  | .save store key level content client host =>
    (store.save sink key level content client host ring).2.2
  | .receive id => (ring.receive id).2

/-- The ring after some actions. -/
def run (ring : Ring) (actions : List Action) : Ring := actions.foldl act ring

/-- What an observer is given in an action. -/
def given (id : Nat) (ring : Ring) : Action → List Receipt
  | .receive other => if other = id then [(ring.receive id).1] else []
  | _ => []

/-- What an observer is given over some actions, in order. -/
def givenOver (id : Nat) : Ring → List Action → List Receipt
  | _, [] => []
  | ring, action :: rest => ring.given id action ++ givenOver id (ring.act action) rest

/-! ## What matters to one observer -/

/-- What an action can be to one observer. -/
inductive Concern
  | sent (event : Event)
  | asks
  | leaves

/-- What an action is to the observer `id`. -/
def Action.concern? (id : Nat) : Action → Option Concern
  | .subscribe => none
  | .unsubscribe other => if other = id then some .leaves else none
  | .receive other => if other = id then some .asks else none
  | .emit event => some (.sent event)
  | .save store key level content client host =>
    (save store key level content client host).emission?.map .sent

/-- What an observer with these unreceived events is given, and what it has not received then. -/
def handOut (slots : Nat) (pending : List Event) : Receipt × List Event :=
  if slots < pending.length then
    (.lagged (pending.length - slots), pending.drop (pending.length - slots))
  else
    match pending with
    | [] => (.empty, [])
    | event :: more => (.event event, more)

/-- What an observer is given in something that concerns it, and its unreceived events after that.
One that has left has none. -/
def meet (slots : Nat) : Option (List Event) → Concern → List Receipt × Option (List Event)
  | view, .sent event => ([], view.map (· ++ [event]))
  | _, .leaves => ([], none)
  | none, .asks => ([.gone], none)
  | some pending, .asks => ([(handOut slots pending).1], some (handOut slots pending).2)

/-- `meet` over all that concerns the observer. -/
def watch (slots : Nat) : Option (List Event) → List Concern → List Receipt × Option (List Event)
  | view, [] => ([], view)
  | view, concern :: rest =>
    ((meet slots view concern).1 ++ (watch slots (meet slots view concern).2 rest).1,
      (watch slots (meet slots view concern).2 rest).2)

/-! ## The ring keeps to the rule -/

/-- These are the last events of the ring's stream, and the observer stands before them. -/
def Awaits (ring : Ring) (id : Nat) (pending : List Event) : Prop :=
  ∃ earlier, ring.Carries (earlier ++ pending) ∧ ring.At id earlier.length

/-- The observer has been there and is not any more. -/
def Left (ring : Ring) (id : Nat) : Prop :=
  ring.observers.find? (·.id = id) = none ∧ id < ring.joined

/-- The observer has these unreceived events, or has left. -/
def Sees (ring : Ring) (id : Nat) : Option (List Event) → Prop
  | some pending => ring.Awaits id pending
  | none => ring.Left id

variable {ring : Ring} {id other : Nat} {pending : List Event} {view : Option (List Event)}

theorem awaits_subscribe {history : List Event} (h : ring.Carries history) :
    ring.subscribe.2.Awaits ring.subscribe.1 [] := by
  refine ⟨history, ?_, At.subscribe_self h⟩
  rw [List.append_nil]
  exact h.subscribe

theorem Awaits.subscribe (h : ring.Awaits id pending) : ring.subscribe.2.Awaits id pending := by
  obtain ⟨earlier, hc, ha⟩ := h
  exact ⟨earlier, hc.subscribe, ha.subscribe⟩

theorem Awaits.unsubscribe (h : ring.Awaits id pending) (hn : other ≠ id) :
    (ring.unsubscribe other).Awaits id pending := by
  obtain ⟨earlier, hc, ha⟩ := h
  exact ⟨earlier, hc.unsubscribe other, ha.unsubscribe hn⟩

theorem Awaits.left (h : ring.Awaits id pending) : (ring.unsubscribe id).Left id := by
  obtain ⟨earlier, hc, ha⟩ := h
  refine ⟨?_, hc.fresh _ (List.mem_of_find?_eq_some ha)⟩
  apply List.find?_eq_none.2
  intro o ho
  simpa using (List.mem_filter.1 ho).2

theorem Awaits.emit (h : ring.Awaits id pending) (event : Event) :
    (ring.emit event).Awaits id (pending ++ [event]) := by
  obtain ⟨earlier, hc, ha⟩ := h
  refine ⟨earlier, ?_, ha⟩
  rw [← List.append_assoc]
  exact hc.emit event

theorem Awaits.receive_other (h : ring.Awaits id pending) (hn : other ≠ id) :
    (ring.receive other).2.Awaits id pending := by
  obtain ⟨earlier, hc, ha⟩ := h
  exact ⟨earlier, hc.receive other, ha.receive hn⟩

/-- **An observer that asks is given what the rule gives it, and goes on as the rule says.** -/
theorem Awaits.receive (h : ring.Awaits id pending) :
    (ring.receive id).1 = (handOut ring.slots pending).1 ∧
      (ring.receive id).2.Awaits id (handOut ring.slots pending).2 := by
  obtain ⟨earlier, hc, ha⟩ := h
  unfold handOut
  split
  · rename_i hlt
    have hr : ring.receive id = (.lagged (pending.length - ring.slots),
        ring.moveTo id (earlier.length + (pending.length - ring.slots))) := by
      rw [Ring.receive, ha]
      dsimp only
      rw [hc.sent, List.length_append, if_pos (by omega)]
      congr 2
      · omega
      · omega
    rw [hr]
    refine ⟨rfl, earlier ++ pending.take (pending.length - ring.slots), ?_, ?_⟩
    · rw [List.append_assoc, List.take_append_drop]
      exact hc.moveTo _ _
    · have hl : (earlier ++ pending.take (pending.length - ring.slots)).length =
          earlier.length + (pending.length - ring.slots) := by
        rw [List.length_append, List.length_take]
        omega
      rw [hl]
      exact ha.moveTo_self _
  · rename_i hle
    have hr := receive_eq hc ha (by rw [List.length_append]; omega)
    rw [List.getElem?_append_right (Nat.le_refl _), Nat.sub_self] at hr
    cases pending with
    | nil =>
      rw [hr]
      exact ⟨rfl, earlier, hc, ha⟩
    | cons event more =>
      rw [hr]
      refine ⟨rfl, earlier ++ [event], ?_, ?_⟩
      · rw [List.append_assoc]
        exact hc.moveTo _ _
      · rw [List.length_append]
        exact ha.moveTo_self _

theorem Left.moveTo (h : ring.Left id) (moved place : Nat) : (ring.moveTo moved place).Left id := by
  refine ⟨?_, h.2⟩
  rw [find?_moveTo, h.1]
  rfl

theorem Left.receive (h : ring.Left id) (other : Nat) : (ring.receive other).2.Left id := by
  rcases receive_snd ring other with hr | ⟨place, hr⟩
  · rwa [hr]
  · rw [hr]
    exact h.moveTo other place

theorem Left.subscribe (h : ring.Left id) : ring.subscribe.2.Left id := by
  refine ⟨?_, Nat.lt_succ_of_lt h.2⟩
  show (ring.observers ++ [Observer.mk ring.joined ring.sent]).find? _ = none
  rw [List.find?_append, h.1]
  simp [Nat.ne_of_gt h.2]

theorem Left.unsubscribe (h : ring.Left id) (other : Nat) : (ring.unsubscribe other).Left id := by
  refine ⟨List.find?_eq_none.2 fun o ho => ?_, h.2⟩
  exact List.find?_eq_none.1 h.1 o (List.mem_filter.1 ho).1

/-! ## One action -/

theorem act_save (ring : Ring) (store : Settings) (key level content client : String)
    (host : Host) :
    ring.act (.save store key level content client host) =
      (Action.save store key level content client host).emission?.elim ring ring.emit := by
  show (store.save sink key level content client host ring).2.2 = Option.elim
    (Settings.Made.event?
      ⟨key, level, content, client, host.now, (store.keep key level content client host).1⟩) _ _
  cases hk : store.keep key level content client host with
  | mk answer after =>
    cases answer with
    | ok _ =>
      rw [Settings.save_of_keep_ok hk, Settings.now_of_keep_ok hk]
      rfl
    | error e =>
      rw [Settings.save_of_keep_error hk]
      rfl

theorem slots_act (ring : Ring) (action : Action) : (ring.act action).slots = ring.slots := by
  cases action with
  | subscribe => rfl
  | unsubscribe id => rfl
  | emit event => rfl
  | save store key level content client host =>
    rw [act_save]
    cases (Action.save store key level content client host).emission? <;> rfl
  | receive id =>
    show (ring.receive id).2.slots = _
    rcases receive_snd ring id with hr | ⟨place, hr⟩ <;> rw [hr]
    rfl

theorem Sees.emit (h : ring.Sees id view) (event : Event) :
    (ring.emit event).Sees id (view.map (· ++ [event])) := by
  cases view with
  | none => exact h
  | some pending => exact Awaits.emit h event

/-- **What an action does to an observer is what the rule says of its concern in it.** -/
theorem Sees.act (h : ring.Sees id view) (action : Action) :
    ring.given id action = (((action.concern? id).map (meet ring.slots view)).getD ([], view)).1 ∧
      (ring.act action).Sees id
        (((action.concern? id).map (meet ring.slots view)).getD ([], view)).2 := by
  cases action with
  | subscribe =>
    refine ⟨rfl, ?_⟩
    cases view with
    | none => exact Left.subscribe h
    | some pending => exact Awaits.subscribe h
  | unsubscribe other =>
    by_cases hn : other = id
    · subst hn
      simp only [Action.concern?, if_true]
      refine ⟨rfl, ?_⟩
      cases view with
      | none => exact Left.unsubscribe h other
      | some pending => exact Awaits.left h
    · simp only [Action.concern?, if_neg hn]
      refine ⟨rfl, ?_⟩
      cases view with
      | none => exact Left.unsubscribe h other
      | some pending => exact Awaits.unsubscribe h hn
  | emit event => exact ⟨rfl, h.emit event⟩
  | save store key level content client host =>
    rw [act_save, Action.concern?]
    cases (Action.save store key level content client host).emission? with
    | none => exact ⟨rfl, h⟩
    | some event => exact ⟨rfl, h.emit event⟩
  | receive other =>
    by_cases hn : other = id
    · subst hn
      simp only [Action.concern?, if_true, given]
      cases view with
      | none =>
        have hr : ring.receive other = (.gone, ring) := by
          rw [Ring.receive, h.1]
        refine ⟨by rw [hr]; rfl, Left.receive h other⟩
      | some pending =>
        obtain ⟨hr, ha⟩ := Awaits.receive h
        exact ⟨by rw [hr]; rfl, ha⟩
    · simp only [Action.concern?, given, if_neg hn]
      refine ⟨rfl, ?_⟩
      cases view with
      | none => exact Left.receive h other
      | some pending => exact Awaits.receive_other h hn

/-! ## A run -/

/-- **Over a run, an observer is given what the rule gives it for its own concerns.** -/
theorem Sees.run (h : ring.Sees id view) (actions : List Action) :
    let seen := watch ring.slots view (actions.filterMap (Action.concern? id))
    ring.givenOver id actions = seen.1 ∧ (ring.run actions).Sees id seen.2 := by
  induction actions generalizing ring view with
  | nil => exact ⟨rfl, h⟩
  | cons action rest ih =>
    obtain ⟨hgiven, hsees⟩ := h.act action
    obtain ⟨hrest, hend⟩ := ih hsees
    rw [slots_act] at hrest hend
    cases hc : action.concern? id with
    | none =>
      rw [hc] at hgiven hrest hend
      rw [List.filterMap_cons_none hc]
      refine ⟨?_, hend⟩
      rw [givenOver, hgiven, hrest]
      rfl
    | some concern =>
      rw [hc] at hgiven hrest hend
      rw [List.filterMap_cons_some hc]
      refine ⟨?_, hend⟩
      rw [givenOver, hgiven, hrest]
      rfl

/-- The events that some actions send, in order. -/
def emissions (actions : List Action) : List Event := actions.filterMap Action.emission?

theorem Carries.act {history : List Event} (h : ring.Carries history) (action : Action) :
    (ring.act action).Carries (history ++ action.emission?.toList) := by
  cases action with
  | subscribe =>
    show (ring.subscribe.2).Carries (history ++ [])
    rw [List.append_nil]
    exact h.subscribe
  | unsubscribe id =>
    show (ring.unsubscribe id).Carries (history ++ [])
    rw [List.append_nil]
    exact h.unsubscribe id
  | emit event => exact h.emit event
  | save store key level content client host =>
    rw [act_save]
    cases (Action.save store key level content client host).emission? with
    | none =>
      rw [Option.toList_none, List.append_nil]
      exact h
    | some event => exact h.emit event
  | receive id =>
    show (ring.receive id).2.Carries (history ++ [])
    rw [List.append_nil]
    exact h.receive id

theorem Carries.run {history : List Event} (h : ring.Carries history) (actions : List Action) :
    (ring.run actions).Carries (history ++ emissions actions) := by
  induction actions generalizing ring history with
  | nil =>
    rw [emissions, List.filterMap_nil, List.append_nil]
    exact h
  | cons action rest ih =>
    have hsplit : emissions (action :: rest) = action.emission?.toList ++ emissions rest := by
      unfold emissions
      cases he : action.emission? with
      | none => rw [List.filterMap_cons_none he, Option.toList_none, List.nil_append]
      | some event =>
        rw [List.filterMap_cons_some he, Option.toList_some, List.singleton_append]
    rw [hsplit, ← List.append_assoc]
    exact ih (h.act action)

theorem slots_run (ring : Ring) (actions : List Action) :
    (ring.run actions).slots = ring.slots := by
  induction actions generalizing ring with
  | nil => rfl
  | cons action rest ih => exact (ih _).trans (slots_act ring action)

/-! ## The rule accounts for everything -/

/-- The event that a concern brings, if it brings one. -/
def Concern.event? : Concern → Option Event
  | sent event => some event
  | _ => none

theorem Action.event?_concern? (id : Nat) (action : Action) :
    (action.concern? id).bind Concern.event? = action.emission? := by
  cases action with
  | subscribe => rfl
  | unsubscribe other =>
    rw [concern?]
    split <;> rfl
  | emit event => rfl
  | save store key level content client host =>
    rw [concern?]
    cases (save store key level content client host).emission? <;> rfl
  | receive other =>
    rw [concern?]
    split <;> rfl

theorem emissions_eq (id : Nat) (actions : List Action) :
    emissions actions = (actions.filterMap (Action.concern? id)).filterMap Concern.event? := by
  rw [List.filterMap_filterMap, emissions]
  congr 1
  funext action
  exact (action.event?_concern? id).symm

/-- An observer that has left is told so, and no more. -/
theorem accounts_watch_none (slots : Nat) (concerns : List Concern) :
    Accounts (watch slots none concerns).1 [] := by
  induction concerns with
  | nil => exact .done
  | cons concern rest ih =>
    cases concern with
    | sent event => exact ih
    | asks => exact .gone ih
    | leaves => exact ih

/-- **What an observer is given accounts for the first of the events that it did not have, and the
others are those that it still has not received.** -/
theorem accounts_watch (slots : Nat) (pending : List Event) (concerns : List Concern) :
    ∃ accounted rest, pending ++ concerns.filterMap Concern.event? = accounted ++ rest ∧
      Accounts (watch slots (some pending) concerns).1 accounted ∧
      (.leaves ∉ concerns → (watch slots (some pending) concerns).2 = some rest) := by
  induction concerns generalizing pending with
  | nil => exact ⟨[], pending, by simp, .done, fun _ => rfl⟩
  | cons concern more ih =>
    cases concern with
    | sent event =>
      obtain ⟨accounted, rest, heq, ha, hr⟩ := ih (pending ++ [event])
      refine ⟨accounted, rest, ?_, ha, fun hl => hr fun hm => hl (List.mem_cons_of_mem _ hm)⟩
      rw [← heq, List.append_assoc]
      rfl
    | leaves =>
      exact ⟨[], _, (List.nil_append _).symm, accounts_watch_none slots more,
        fun hl => absurd List.mem_cons_self hl⟩
    | asks =>
      obtain ⟨accounted, rest, heq, ha, hr⟩ := ih (handOut slots pending).2
      have hrest : .leaves ∉ Concern.asks :: more →
          (watch slots (some pending) (.asks :: more)).2 = some rest :=
        fun hl => hr fun hm => hl (List.mem_cons_of_mem _ hm)
      have hwatch : (watch slots (some pending) (.asks :: more)).1 =
          (handOut slots pending).1 :: (watch slots (some (handOut slots pending).2) more).1 := rfl
      rw [hwatch]
      rw [List.filterMap_cons_none rfl]
      unfold handOut at heq ha ⊢
      split at heq
      · rename_i hlt
        rw [if_pos hlt] at ha ⊢
        have hl : pending.length - slots = (pending.take (pending.length - slots)).length := by
          rw [List.length_take]
          omega
        refine ⟨pending.take (pending.length - slots) ++ accounted, rest, ?_, ?_, hrest⟩
        · rw [List.append_assoc, ← heq, ← List.append_assoc, List.take_append_drop]
        · have hlost := Accounts.lagged (pending.take (pending.length - slots)) ha
          rw [← hl] at hlost
          exact hlost
      · rename_i hle
        rw [if_neg hle] at ha ⊢
        cases pending with
        | nil => exact ⟨accounted, rest, heq, .empty ha, hrest⟩
        | cons event left =>
          refine ⟨event :: accounted, rest, ?_, .event event ha, hrest⟩
          exact congrArg (event :: ·) heq

theorem handOut_ne_lagged {slots : Nat} (h : pending.length ≤ slots) (lost : Nat) :
    (handOut slots pending).1 ≠ .lagged lost := by
  unfold handOut
  rw [if_neg (Nat.not_lt.2 h)]
  cases pending <;> simp

theorem eq_nil_of_handOut_empty {slots : Nat} (h : (handOut slots pending).1 = .empty) :
    pending = [] := by
  unfold handOut at h
  split at h
  · cases h
  · cases pending with
    | nil => rfl
    | cons event more => cases h

theorem leaves_not_mem {actions : List Action} (h : .unsubscribe id ∉ actions) :
    .leaves ∉ actions.filterMap (Action.concern? id) := by
  intro hm
  obtain ⟨action, hmem, hc⟩ := List.mem_filterMap.1 hm
  cases action with
  | subscribe => cases hc
  | unsubscribe other =>
    rw [Action.concern?] at hc
    split at hc
    · rename_i hn
      exact h (hn ▸ hmem)
    · cases hc
  | emit event => cases hc
  | save store key level content client host =>
    rw [Action.concern?] at hc
    cases he : (Action.save store key level content client host).emission? <;> rw [he] at hc <;>
      cases hc
  | receive other =>
    rw [Action.concern?] at hc
    split at hc <;> cases hc

/-- **Every observer is told of every event that is sent after it joined.** What it was given
accounts for them one by one up to its place, and what it is given next follows from the others. A
sink of this kind takes every event; and nothing but the events, its own requests and its own
leaving makes a difference to an observer. -/
theorem accounted_for (capacity : Nat) (earlier later : List Action) :
    let ring := (ofCapacity capacity).run earlier
    let id := ring.subscribe.1
    let given := ring.subscribe.2.givenOver id later
    let now := ring.subscribe.2.run later
    (∃ accounted pending, emissions later = accounted ++ pending ∧ Accounts given accounted ∧
      (.unsubscribe id ∉ later →
        now.At id (ring.sent + accounted.length) ∧
        (now.receive id).1 = (handOut (slotsFor capacity) pending).1 ∧
        (pending.length ≤ max capacity 1 → ∀ lost, (now.receive id).1 ≠ .lagged lost))) ∧
    (∀ tree event (observed : Ring), (sink tree event observed).1 = .ok ()) ∧
    ∀ earlier' later',
      let ring' := (ofCapacity capacity).run earlier'
      let id' := ring'.subscribe.1
      later'.filterMap (Action.concern? id') = later.filterMap (Action.concern? id) →
        ring'.subscribe.2.givenOver id' later' = given := by
  intro ring id given now
  -- Every observer starts out with nothing to receive.
  have joins : ∀ past, ((ofCapacity capacity).run past).subscribe.2.Sees
      ((ofCapacity capacity).run past).subscribe.1 (some []) := fun past =>
    awaits_subscribe ((carries_ofCapacity capacity).run past)
  have hslots : ∀ past, ((ofCapacity capacity).run past).subscribe.2.slots = slotsFor capacity :=
    fun past => slots_run (ofCapacity capacity) past
  obtain ⟨hgiven, hsees⟩ := (joins earlier).run later
  rw [hslots earlier] at hgiven hsees
  refine ⟨?accounted, fun _ _ _ => rfl, ?alone⟩
  case accounted =>
    obtain ⟨accounted, pending, heq, ha, hend⟩ :=
      accounts_watch (slotsFor capacity) [] (later.filterMap (Action.concern? id))
    rw [List.nil_append, ← emissions_eq] at heq
    refine ⟨accounted, pending, heq, ?_, fun hstays => ?_⟩
    · show Accounts (ring.subscribe.2.givenOver id later) accounted
      rw [hgiven]
      exact ha
    · rw [hend (leaves_not_mem hstays)] at hsees
      have hnext := (Awaits.receive hsees).1
      have hnow : now.slots = slotsFor capacity := (slots_run _ later).trans (hslots earlier)
      rw [show (ring.subscribe.2.run later).slots = slotsFor capacity from hnow] at hnext
      refine ⟨?_, hnext, fun hfew lost => ?_⟩
      · obtain ⟨front, hc, hat⟩ := hsees
        have hsent := ((carries_ofCapacity capacity).run earlier).subscribe.run later |>.sent
        have hfront : front.length = ring.sent + accounted.length := by
          have hring : ring.sent = _ := ((carries_ofCapacity capacity).run earlier).sent
          rw [hc.sent, heq] at hsent
          simp only [List.length_append, List.length_nil, Nat.zero_add] at hsent hring
          omega
        rw [← hfront]
        exact hat
      · rw [hnext]
        exact handOut_ne_lagged (Nat.le_trans hfew (le_slotsFor capacity)) lost
  case alone =>
    intro earlier' later' ring' id' hsame
    obtain ⟨hgiven', -⟩ := (joins earlier').run later'
    rw [hslots earlier'] at hgiven'
    show ring'.subscribe.2.givenOver id' later' = ring.subscribe.2.givenOver id later
    rw [hgiven, hgiven']
    exact congrArg (fun concerns => (watch (slotsFor capacity) (some []) concerns).1) hsame

/-- An event that tells one number. -/
def numbered (n : Nat) : Event := ⟨"t", .natural n⟩

/-- A ring of one slot and two events: the first is lost for the observer that asks late, whether
another one has received it or there is no other. -/
theorem accounted_for_late :
    let later := [Action.emit (numbered 1), .receive 0, .emit (numbered 2), .receive 1, .receive 1]
    let alone := [Action.emit (numbered 1), .emit (numbered 2), .receive 0, .receive 0]
    let given := ((ofCapacity 1).run [.subscribe]).subscribe.2.givenOver 1 later
    .unsubscribe 1 ∉ later ∧ given = [.lagged 1, .event (numbered 2)] ∧
      Accounts given (emissions later) ∧ (ofCapacity 1).subscribe.2.givenOver 0 alone = given := by
  intro later alone given
  obtain ⟨⟨accounted, pending, heq, ha, hnext⟩, -, hsame⟩ := accounted_for 1 [.subscribe] later
  have hstays : .unsubscribe 1 ∉ later := by simp [later]
  have hgiven : given = [.lagged 1, .event (numbered 2)] := rfl
  have hall : pending = [] := by
    obtain ⟨-, hr, -⟩ := hnext hstays
    exact eq_nil_of_handOut_empty hr.symm
  refine ⟨hstays, hgiven, ?_, hsame [] alone rfl⟩
  rw [heq, hall, List.append_nil]
  exact ha

end Ring
end LineStore
