import LineStore.Proofs.Server.Latest

/-!
# What a server has done for one connection

`Server.served` is the record of a run: every turn that one connection had, with the world in which
it was taken. The client's bytes may come in any portions, the turns are taken at any time, and in
between anything may happen for others. Still the record is at every moment an initial piece of the
turns that the bytes call for, and the connection was sent one reply for each: this is what an
`Account` says, every action keeps it (`Account.act`), and `answered` reads it off at the end.

The account speaks about all ways in which the client may go on (`Account.owed`). That is what makes
it survive the next bytes: the turns that were taken could not have been affected by them.
-/

namespace LineStore

namespace Action

variable (address : Address)

/-- The bytes that come in from an address. -/
def bytesFrom : Action → Bytes
  | receive a bytes => if a = address then bytes else []
  | _ => []

/-- Whether the client at an address stops sending. -/
def finishes : Action → Bool
  | finish a => a = address
  | _ => false

/-- Whether the connection from an address is replaced or lost. -/
def breaks : Action → Bool
  | arrive a => a = address
  | lose a => a = address
  | _ => false

end Action

/-- What the client at an address sends in the course of some actions. -/
def received (address : Address) (actions : List Action) : Bytes :=
  actions.flatMap (·.bytesFrom address)

/-- Whether it stops sending in the course of them. -/
def finished (address : Address) (actions : List Action) : Bool :=
  actions.any (·.finishes address)

/-- The actions leave a connection in place, and the client sends nothing after it has stopped. -/
structure Session (address : Address) (actions : List Action) : Prop where
  unbroken : ∀ action ∈ actions, action.breaks address = false
  quiet : actions.Pairwise fun earlier later =>
    earlier.finishes address = true → later.bytesFrom address = []

namespace Server

/-- The turn that a connection has in an action. -/
def turn? (s : Server) (address : Address) : Action → Option Turn
  | .serve a =>
    if a = address then
      (s.find? address).bind fun c =>
        if c.subscription.isBusy then none else (Intake.next s.limits c.ended c.input).turn?
    else none
  | _ => none

/-- The turns of a connection in the course of some actions, each with the world as it was. -/
def served (s : Server) (address : Address) : List Action → List (Turn × World)
  | [] => []
  | action :: actions =>
    (s.turn? address action).toList.map (·, s.world) ++ (s.act action).served address actions

variable {s : Server} {address : Address} {c : Connection}

theorem served_append (s : Server) (first second : List Action) :
    s.served address (first ++ second) =
      s.served address first ++ (s.run first).served address second := by
  induction first generalizing s with
  | nil => rfl
  | cons action first ih =>
    rw [List.cons_append, served, served, ih, List.append_assoc]
    rfl

theorem run_append (s : Server) (first second : List Action) :
    s.run (first ++ second) = (s.run first).run second := List.foldl_append

/-! ## The configuration stays -/

theorem config_answer (s : Server) (c : Connection) (command : Command) (body : Option String) :
    (s.answer c command body).config = s.config := by
  unfold answer
  dsimp only
  split
  · split <;> rfl
  · rfl
  · rfl

theorem config_readNext (s : Server) (c : Connection) : (s.readNext c).config = s.config := by
  unfold readNext
  split
  · rfl
  · rfl
  · rfl
  · rfl
  · exact config_answer _ c _ _

theorem config_serve (s : Server) (c : Connection) : (s.serve c).config = s.config := by
  unfold serve
  split
  · rfl
  · rfl
  · exact config_readNext s c
  · exact config_readNext s c

theorem config_forward (s : Server) (c : Connection) : (s.forward c).config = s.config := by
  unfold forward
  split
  · rfl
  · dsimp only
    split <;> rfl
  · rfl

theorem config_act (s : Server) (action : Action) : (s.act action).config = s.config := by
  cases action with
  | arrive a =>
    unfold act arrive
    dsimp only
    split <;> rfl
  | receive a bytes => rfl
  | finish a => rfl
  | lose a =>
    rw [act_lose]
    cases s.find? a <;> rfl
  | serve a =>
    rw [act_serve]
    cases s.find? a with
    | none => rfl
    | some c => exact config_serve s c
  | forward a =>
    rw [act_forward]
    cases s.find? a with
    | none => rfl
    | some c => exact config_forward s c

theorem limits_act (s : Server) (action : Action) : (s.act action).limits = s.limits := by
  rw [limits, config_act, limits]

theorem stores_act (s : Server) (action : Action) : (s.act action).stores = s.stores := by
  rw [stores, config_act, stores]

/-! ## Turns and steps that are none -/

theorem turn?_serve (h : Latest address c s.connections) (ho : c.isOpen = true)
    (hb : c.subscription.isBusy = false) :
    s.turn? address (.serve address) = (Intake.next s.limits c.ended c.input).turn? := by
  rw [turn?, if_pos rfl, find?_of_latest h, if_pos ho, Option.bind_some, hb,
    if_neg Bool.false_ne_true]

theorem turn?_serve_busy (h : Latest address c s.connections) (ho : c.isOpen = true)
    (hb : c.subscription.isBusy = true) : s.turn? address (.serve address) = none := by
  rw [turn?, if_pos rfl, find?_of_latest h, if_pos ho, Option.bind_some, hb, if_pos rfl]

/-! ## Accounts -/

/-- The account of a connection: `input` has come in from it and these turns were taken. -/
structure Account (s : Server) (address : Address) (ended : Bool) (input : Bytes)
    (log : List (Turn × World)) (c : Connection) : Prop where
  latest : Latest address c s.connections
  /-- The connection knows whether the client has stopped, as long as it matters. -/
  known : c.ended = true → ended = true
  told : c.isOpen = true → ended = true → c.ended = true
  promised : c.promised = greeting :: log.map fun (turn, world) => turn.reply s.stores world
  free : c.isOpen = false → c.subscription.isBusy = false
  owed : ∀ ended' more, Intake.Continues c.ended ended' more →
    Intake.turns s.limits ended' (input ++ more) = log.map Prod.fst ++
      if c.isOpen = true then Intake.turns s.limits ended' (c.input ++ more) else []

namespace Account

variable {ended : Bool} {input : Bytes} {log : List (Turn × World)}

/-- The account of a connection that has just been accepted. -/
theorem arrive {registry : Registry} (hr : s.registry.insert? address = some registry)
    (hn : s.find? address = none) :
    Account (s.act (.arrive address)) address false [] [] (.begin address greeting true) := by
  have hs : s.act (.arrive address) =
      { s with registry, connections := .begin address greeting true :: s.connections } := by
    unfold act Server.arrive
    dsimp only
    rw [hr]
  rw [hs]
  constructor
  case latest =>
    refine .here rfl fun d hd ha => ?_
    have := List.find?_eq_none.1 hn d hd
    simpa [ha] using this
  case known => exact fun h => h
  case told => exact fun _ h => h
  case promised => rfl
  case free => exact fun _ => rfl
  case owed => exact fun _ _ _ => rfl

theorem continues (h : Account s address ended input log c) {ended' : Bool} {bytes more : Bytes}
    (hq : ended = true → bytes = []) (hc : Intake.Continues c.ended ended' more) :
    Intake.Continues c.ended ended' (bytes ++ more) := by
  intro he
  rw [hq (h.known he), (hc he).2]
  exact ⟨(hc he).1, rfl⟩

/-- An action that does not change the connection, and brings bytes only if that has ended. -/
theorem still (h : Account s address ended input log c) {action : Action}
    (hl : Latest address c (s.act action).connections)
    (hf : c.isOpen = true → action.finishes address = false)
    (hb : c.isOpen = true → action.bytesFrom address = [])
    (hq : ended = true → action.bytesFrom address = []) :
    Account (s.act action) address (ended || action.finishes address)
      (input ++ action.bytesFrom address) log c := by
  constructor
  case latest => exact hl
  case known => exact fun hc => by rw [h.known hc, Bool.true_or]
  case told =>
    intro ho he
    rw [hf ho, Bool.or_false] at he
    exact h.told ho he
  case promised => rw [stores_act]; exact h.promised
  case free => exact h.free
  case owed =>
    intro ended' more hc
    rw [limits_act, List.append_assoc, h.owed ended' _ (h.continues hq hc)]
    by_cases ho : c.isOpen = true
    · rw [hb ho, List.nil_append]
    · rw [if_neg ho, if_neg ho]

theorem receive (h : Account s address ended input log c) (ho : c.isOpen = true) {bytes : Bytes}
    (hq : ended = true → bytes = []) :
    Account (s.act (.receive address bytes)) address ended (input ++ bytes) log
      { c with input := c.input ++ bytes } := by
  constructor
  case latest => exact latest_receive h.latest ho bytes
  case known => exact h.known
  case told => exact h.told
  case promised => rw [stores_act]; exact h.promised
  case free => exact h.free
  case owed =>
    intro ended' more hc
    rw [limits_act, List.append_assoc, h.owed ended' _ (h.continues hq hc), List.append_assoc]

theorem finish (h : Account s address ended input log c) (ho : c.isOpen = true) :
    Account (s.act (.finish address)) address true input log { c with ended := true } := by
  constructor
  case latest => exact latest_finish h.latest ho
  case known => exact fun _ => rfl
  case told => exact fun _ _ => rfl
  case promised => rw [stores_act]; exact h.promised
  case free => exact h.free
  case owed =>
    intro ended' more hc
    obtain ⟨rfl, rfl⟩ := hc rfl
    rw [limits_act]
    exact h.owed true [] fun _ => ⟨rfl, rfl⟩

theorem serve (h : Account s address ended input log c) (ho : c.isOpen = true)
    (hb : c.subscription.isBusy = false) (hw : Intake.next s.limits c.ended c.input ≠ .wait) :
    ∃ after, Account (s.act (.serve address)) address ended input
      (log ++ (s.turn? address (.serve address)).toList.map (·, s.world)) after := by
  obtain ⟨after, hl, ht⟩ := latest_serve h.latest ho hb hw
  refine ⟨after, ?_⟩
  rw [turn?_serve h.latest ho hb]
  constructor
  case latest => exact hl
  case known => exact fun he => h.known (ht.ended ▸ he)
  case told => exact fun _ he => ht.ended ▸ h.told ho he
  case promised =>
    rw [ht.promised, h.promised, stores_act, List.map_append]
    cases (Intake.next s.limits c.ended c.input).turn? <;> rfl
  case free => exact ht.free
  case owed =>
    intro ended' more hc
    rw [ht.ended] at hc
    rw [limits_act, h.owed ended' more hc, if_pos ho, Intake.turns_continue hc hw, ht.isOpen,
      List.map_append, List.append_assoc]
    congr 1
    cases hr : (Intake.next s.limits c.ended c.input).onward? with
    | none => cases (Intake.next s.limits c.ended c.input).turn? <;> rfl
    | some rest =>
      rw [ht.input rest hr]
      cases (Intake.next s.limits c.ended c.input).turn? <;> rfl

/-- A step that is no turn of the connection. -/
theorem keep (h : Account s address ended input log c) (ho : c.isOpen = true) {action : Action}
    {after : Connection} (hl : Latest address after (s.act action).connections)
    (hk : c.Kept after) : Account (s.act action) address ended input log after := by
  constructor
  case latest => exact hl
  case known => exact fun hc => h.known (hk.ended ▸ hc)
  case told => exact fun _ hc => hk.ended ▸ h.told ho hc
  case promised => rw [hk.promised, stores_act]; exact h.promised
  case free => exact fun hc => by rw [hk.isOpen, ho] at hc; cases hc
  case owed =>
    rw [hk.ended, hk.input, hk.isOpen, limits_act]
    exact h.owed

end Account

/-! ## Steps and runs -/

theorem turn?_eq_none_of_other {action : Action} (ha : action.address ≠ address) :
    s.turn? address action = none := by
  cases action with
  | serve a => exact if_neg ha
  | _ => rfl

end Server

namespace Action

variable {address : Address} {action : Action}

theorem bytesFrom_of_other (ha : action.address ≠ address) : action.bytesFrom address = [] := by
  cases action with
  | receive a bytes => exact if_neg ha
  | _ => rfl

theorem finishes_of_other (ha : action.address ≠ address) : action.finishes address = false := by
  cases action with
  | finish a => exact decide_eq_false ha
  | _ => rfl

end Action

namespace Server

variable {s : Server} {address : Address} {c : Connection} {ended : Bool} {input : Bytes}
  {log : List (Turn × World)}

/-- **Every action keeps the account.** -/
theorem Account.act (h : Account s address ended input log c) {action : Action}
    (hb : action.breaks address = false) (hq : ended = true → action.bytesFrom address = []) :
    ∃ after, Account (s.act action) address (ended || action.finishes address)
      (input ++ action.bytesFrom address)
      (log ++ (s.turn? address action).toList.map (·, s.world)) after := by
  by_cases ha : action.address = address
  case neg =>
    rw [turn?_eq_none_of_other ha]
    refine ⟨c, ?_⟩
    rw [Option.toList_none, List.map_nil, List.append_nil]
    exact h.still (latest_act_other h.latest ha) (fun _ => Action.finishes_of_other ha)
      (fun _ => Action.bytesFrom_of_other ha) hq
  case pos =>
    by_cases ho : c.isOpen = true
    case neg =>
      have ht : s.turn? address action = none := by
        cases action with
        | serve a => rw [turn?, find?_of_latest h.latest, if_neg ho]; exact ite_self _
        | _ => rfl
      have hn : ∀ other, action ≠ .arrive other := by
        rintro other rfl
        exact absurd ha (of_decide_eq_false hb)
      refine ⟨c, ?_⟩
      rw [ht, Option.toList_none, List.map_nil, List.append_nil]
      exact h.still (latest_act_closed h.latest ho ha hn) (fun hc => absurd hc ho)
        (fun hc => absurd hc ho) hq
    case pos =>
      cases action with
      | arrive a => exact absurd ha (of_decide_eq_false hb)
      | lose a => exact absurd ha (of_decide_eq_false hb)
      | receive a bytes =>
        have ha : a = address := ha
        subst ha
        have he : (Action.receive a bytes).bytesFrom a = bytes := if_pos rfl
        rw [he] at hq ⊢
        refine ⟨{ c with input := c.input ++ bytes }, ?_⟩
        simpa [turn?, Action.finishes] using h.receive ho hq
      | finish a =>
        have ha : a = address := ha
        subst ha
        refine ⟨{ c with ended := true }, ?_⟩
        simpa [turn?, Action.finishes, Action.bytesFrom] using h.finish ho
      | serve a =>
        have ha : a = address := ha
        subst ha
        have hb : (Action.serve a).bytesFrom a = [] := rfl
        have hf : (Action.serve a).finishes a = false := rfl
        rw [hb, hf, Bool.or_false, List.append_nil]
        by_cases hbusy : c.subscription.isBusy = true
        case pos =>
          obtain ⟨after, hl, hk, -⟩ := latest_serve_busy h.latest ho hbusy
          rw [turn?_serve_busy h.latest ho hbusy, Option.toList_none, List.map_nil,
            List.append_nil]
          exact ⟨after, h.keep ho hl hk⟩
        case neg =>
          have hbusy : c.subscription.isBusy = false := eq_false_of_ne_true hbusy
          by_cases hw : Intake.next s.limits c.ended c.input = .wait
          · rw [turn?_serve h.latest ho hbusy, hw, act_serve_of_wait h.latest hbusy hw]
            refine ⟨c, ?_⟩
            rw [Intake.turn?, Option.toList_none, List.map_nil, List.append_nil]
            exact h
          · exact h.serve ho hbusy hw
      | forward a =>
        have ha : a = address := ha
        subst ha
        obtain ⟨after, hl, hk⟩ := latest_forward h.latest ho
        refine ⟨after, ?_⟩
        simpa [turn?, Action.finishes, Action.bytesFrom] using h.keep ho hl hk

/-- **A run keeps the account.** -/
theorem Account.run (h : Account s address ended input log c) {actions : List Action}
    (ha : Session address actions)
    (hq : ended = true → received address actions = []) :
    ∃ after, Account (s.run actions) address (ended || finished address actions)
      (input ++ received address actions) (log ++ s.served address actions) after := by
  induction actions generalizing s c ended input log with
  | nil =>
    refine ⟨c, ?_⟩
    simpa [run, finished, received, served] using h
  | cons action actions ih =>
    have hp := List.pairwise_cons.1 ha.quiet
    have hrest : Session address actions :=
      ⟨fun a hm => ha.unbroken a (List.mem_cons_of_mem _ hm), hp.2⟩
    have hr : ∀ a, received address (a :: actions) =
        a.bytesFrom address ++ received address actions := fun _ => List.flatMap_cons
    have hq₁ : ended = true → action.bytesFrom address = [] := fun he =>
      (List.append_eq_nil_iff.1 (hr action ▸ hq he)).1
    have hq₂ : (ended || action.finishes address) = true → received address actions = [] := by
      intro he
      rcases Bool.or_eq_true_iff.1 he with he | he
      · exact (List.append_eq_nil_iff.1 (hr action ▸ hq he)).2
      · exact List.flatMap_eq_nil_iff.2 fun a hm => hp.1 a hm he
    obtain ⟨after, hs⟩ := h.act (ha.unbroken action List.mem_cons_self) hq₁
    obtain ⟨last, hl⟩ := ih hs hrest hq₂
    refine ⟨last, ?_⟩
    rw [hr, served, finished, List.any_cons, ← List.append_assoc, ← List.append_assoc,
      ← Bool.or_assoc]
    exact hl

/-! ## What is left to do -/

/-- The turns that a connection is still to have. -/
def remaining (s : Server) (c : Connection) : List Turn :=
  if c.isOpen = true then Intake.turns s.limits c.ended c.input else []

theorem remaining_of_closed (ho : ¬ c.isOpen = true) : s.remaining c = [] := if_neg ho

theorem remaining_of_wait (hw : Intake.next s.limits c.ended c.input = .wait) :
    s.remaining c = [] := by
  unfold remaining
  split
  · rw [Intake.turns_eq, hw]
    rfl
  · rfl

theorem remaining_of_turned (ho : c.isOpen = true) {reply : Turn → Reply} {after : Connection}
    (h : c.Turned reply (Intake.next s.limits c.ended c.input) after) :
    s.remaining c = (Intake.next s.limits c.ended c.input).turn?.toList ++ s.remaining after := by
  rw [remaining, remaining, if_pos ho, Intake.turns_eq, h.isOpen, h.ended]
  congr 1
  cases hr : (Intake.next s.limits c.ended c.input).onward? with
  | none => rfl
  | some rest =>
    rw [h.input rest hr]
    rfl

theorem remaining_act (action : Action) (after : Connection) :
    (s.act action).remaining after = s.remaining after := by
  rw [remaining, limits_act, remaining]

theorem remaining_of_kept {after : Connection} (h : c.Kept after) :
    s.remaining after = s.remaining c := by
  rw [remaining, remaining, h.isOpen, h.ended, h.input]

theorem awaited?_of_latest (h : Latest address c s.connections) :
    s.awaited? address = c.subscription.reply? := by
  rw [awaited?, h.find?_eq]
  rfl

/-- What a number of steps of its handler come to for a connection: it has had these turns and is to
be sent nothing more. -/
def Done (s : Server) (address : Address) (steps : Nat) (turns : List Turn) : Prop :=
  (s.served address (List.replicate steps (.serve address))).map Prod.fst = turns ∧
    (s.run (List.replicate steps (.serve address))).awaited? address = none

theorem Done.succ {n : Nat} {turns : List Turn}
    (h : (s.act (.serve address)).Done address n turns) :
    s.Done address (n + 1) ((s.turn? address (.serve address)).toList ++ turns) := by
  refine ⟨?_, h.2⟩
  rw [List.replicate_succ, served, List.map_append, List.map_map, h.1]
  exact congrArg (· ++ turns) (List.map_id _)

/-- Where no turn is to come, none comes. -/
theorem done_nil (h : Latest address c s.connections) (hb : c.subscription.isBusy = false)
    (hr : s.remaining c = []) (n : Nat) : s.Done address n [] := by
  induction n generalizing s c with
  | zero => exact ⟨rfl, (awaited?_of_latest h).trans (c.reply?_of_not_busy hb)⟩
  | succ n ih =>
    by_cases ho : c.isOpen = true
    case neg =>
      have ht : s.turn? address (.serve address) = none := by
        rw [turn?, if_pos rfl, find?_of_latest h, if_neg ho]
        rfl
      have hd := (ih (latest_act_closed h ho rfl fun _ hc => by cases hc) hb
        (by rw [remaining_act, hr])).succ
      rwa [ht] at hd
    case pos =>
      have ht : (Intake.next s.limits c.ended c.input).turn? = none := by
        rw [remaining, if_pos ho, Intake.turns_eq] at hr
        simpa using (List.append_eq_nil_iff.1 hr).1
      by_cases hw : Intake.next s.limits c.ended c.input = .wait
      case pos =>
        have hd := (ih (s := s.act (.serve address)) (c := c)
          (by rw [act_serve_of_wait h hb hw]; exact h) hb (by rw [remaining_act, hr])).succ
        rwa [turn?_serve h ho hb, ht] at hd
      case neg =>
        obtain ⟨after, hl, hs⟩ := latest_serve h ho hb hw
        -- Nothing is done only where the connection ends.
        have hc : ¬ after.isOpen = true := by
          rw [hs.isOpen, Intake.onward?_of_not_turn? ht]
          exact Bool.false_ne_true
        have hd := (ih hl (hs.free (eq_false_of_ne_true hc)) (remaining_of_closed hc)).succ
        rwa [turn?_serve h ho hb, ht] at hd

/-- **Serving a connection takes its turns one by one**, with a few steps more for a request for
events. -/
theorem done_remaining {n : Nat} (h : Latest address c s.connections)
    (hf : c.isOpen = false → c.subscription.isBusy = false)
    (hn : (s.remaining c).length + c.subscription.delay ≤ n) :
    s.Done address n (s.remaining c) := by
  induction n generalizing s c with
  | zero =>
    have hr : s.remaining c = [] := List.length_eq_zero_iff.1 (by omega)
    have hb : c.subscription.isBusy = false := by
      cases hs : c.subscription with
      | joined _ _ | confirmed _ | absent => rw [hs, Subscription.delay] at hn; omega
      | forwarding _ _ => rfl
    rw [hr]
    exact done_nil h hb hr 0
  | succ n ih =>
    by_cases hb : c.subscription.isBusy = true
    case pos =>
      have ho : c.isOpen = true := by
        cases ho : c.isOpen with
        | true => rfl
        | false => rw [hf ho] at hb; cases hb
      obtain ⟨after, hl, hk, hd⟩ := latest_serve_busy h ho hb
      have hr : (s.act (.serve address)).remaining after = s.remaining c :=
        (remaining_act ..).trans (remaining_of_kept hk)
      have hdone := (ih hl (fun hc => by rw [hk.isOpen, ho] at hc; cases hc)
        (by rw [hr]; omega)).succ
      rwa [turn?_serve_busy h ho hb, hr] at hdone
    case neg =>
      have hb : c.subscription.isBusy = false := eq_false_of_ne_true hb
      by_cases hr : s.remaining c = []
      · rw [hr]
        exact done_nil h hb hr _
      · have ho : c.isOpen = true := Decidable.byContradiction fun ho =>
          hr (remaining_of_closed ho)
        have hw : Intake.next s.limits c.ended c.input ≠ .wait := fun hw =>
          hr (remaining_of_wait hw)
        obtain ⟨after, hl, hs⟩ := latest_serve h ho hb hw
        have hsplit := remaining_of_turned ho hs
        have hpos : 0 < (Intake.next s.limits c.ended c.input).turn?.toList.length := by
          cases hi : (Intake.next s.limits c.ended c.input).turn? with
          | some turn => exact Nat.one_pos
          | none =>
            have hc : ¬ after.isOpen = true := by
              rw [hs.isOpen, Intake.onward?_of_not_turn? hi]
              exact Bool.false_ne_true
            rw [hi, remaining_of_closed hc] at hsplit
            exact absurd hsplit hr
        have hdelay := hs.delay
        rw [hsplit, List.length_append] at hn
        have hdone := (ih hl hs.free (by rw [remaining_act]; omega)).succ
        rwa [turn?_serve h ho hb, remaining_act, ← hsplit] at hdone

/-- If nothing can be done for a connection, it has had all its turns. -/
theorem remaining_of_not_due (h : Latest address c s.connections)
    (hf : c.isOpen = false → c.subscription.isBusy = false) (hd : s.due? address = none) :
    s.remaining c = [] ∧ c.subscription.isBusy = false := by
  by_cases ho : c.isOpen = true
  case neg => exact ⟨remaining_of_closed ho, hf (eq_false_of_ne_true ho)⟩
  case pos =>
    unfold due? at hd
    rw [find?_of_latest h, if_pos ho] at hd
    simp only [Option.bind_eq_bind, Option.bind_some] at hd
    split at hd
    · cases hd
    · split at hd
      · cases hd
      · rename_i hb
        refine ⟨remaining_of_wait ?_, eq_false_of_ne_true hb⟩
        split at hd
        · assumption
        · cases hd

/-- What a run has done for a connection from its beginning on. -/
structure Answered (s : Server) (address : Address) (actions : List Action) (owed : List Turn) :
    Prop where
  /-- The turns are what they should be, as far as they go. -/
  inOrder : (s.served address actions).map Prod.fst <+: owed
  /-- There is one reply for each, after the greeting. The last may be about to be written. -/
  replies : ((s.run actions).sentTo address).filterMap Output.reply? ++
      ((s.run actions).awaited? address).toList =
    greeting :: (s.served address actions).map fun (turn, world) => turn.reply s.stores world
  /-- They are all there when nothing more can be done. -/
  complete : (s.run actions).due? address = none →
    (s.served address actions).map Prod.fst = owed ∧ (s.run actions).awaited? address = none
  /-- They are all there when the connection has been served often enough. -/
  soon : ∀ n, owed.length + 2 ≤ n →
    (s.served address (actions ++ List.replicate n (.serve address))).map Prod.fst = owed ∧
      (s.run (actions ++ List.replicate n (.serve address))).awaited? address = none

theorem stores_run (s : Server) (actions : List Action) : (s.run actions).stores = s.stores := by
  induction actions generalizing s with
  | nil => rfl
  | cons action actions ih => exact (ih (s.act action)).trans (stores_act s action)

theorem limits_run (s : Server) (actions : List Action) : (s.run actions).limits = s.limits := by
  induction actions generalizing s with
  | nil => rfl
  | cons action actions ih => exact (ih (s.act action)).trans (limits_act s action)

/-- **A connection gets what its bytes call for**, in whatever portions they come and whatever else
happens. -/
theorem answered {registry : Registry} (hr : s.registry.insert? address = some registry)
    (hn : s.find? address = none) {actions : List Action} (ha : Session address actions) :
    (s.act (.arrive address)).Answered address actions
      (Intake.turns s.limits (finished address actions) (received address actions)) := by
  obtain ⟨c, h⟩ := (Account.arrive hr hn).run ha fun hc => by cases hc
  rw [Bool.false_or, List.nil_append, List.nil_append] at h
  have howed : Intake.turns s.limits (finished address actions) (received address actions) =
      ((s.act (.arrive address)).served address actions).map Prod.fst ++
        ((s.act (.arrive address)).run actions).remaining c := by
    have ho := h.owed (finished address actions) [] fun he => ⟨h.known he, rfl⟩
    rw [List.append_nil, List.append_nil, limits_run, limits_act] at ho
    rw [ho, remaining, limits_run, limits_act]
    by_cases hc : c.isOpen = true
    · have he : c.ended = finished address actions :=
        Bool.eq_iff_iff.2 ⟨h.known, h.told hc⟩
      rw [he]
    · rw [if_neg hc, if_neg hc]
  -- What is owed is what was done and what remains; each field is about one of the two.
  rw [howed]
  constructor
  case inOrder => exact List.prefix_append _ _
  case replies =>
    have hs : ((s.act (.arrive address)).run actions).sentTo address = c.sent.reverse := by
      rw [sentTo, h.latest.find?_eq]
      rfl
    rw [hs, awaited?_of_latest h.latest, ← stores_run _ actions]
    exact h.promised
  case complete =>
    intro hd
    obtain ⟨hr, hb⟩ := remaining_of_not_due h.latest h.free hd
    rw [hr, List.append_nil, awaited?_of_latest h.latest]
    exact ⟨rfl, c.reply?_of_not_busy hb⟩
  case soon =>
    intro n hl
    rw [List.length_append] at hl
    have hdelay := c.subscription.delay_le
    obtain ⟨hturns, hreplies⟩ := done_remaining (n := n) h.latest h.free (by omega)
    rw [served_append, List.map_append, hturns, run_append]
    exact ⟨rfl, hreplies⟩

end Server
end LineStore
