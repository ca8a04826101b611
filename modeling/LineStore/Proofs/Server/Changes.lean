import LineStore.Proofs.Server.Account
import LineStore.Proofs.Service.Failure

/-!
# What is changed for a connection

Of all that is done for a connection, only the commands that succeed in a put, a save or a removal
change what is stored: `Turn.change?`. It leaves nothing out (`Stores.tree_of_no_change`). What a
command does to the machine does not depend on who is listening (`Stores.handle_congr`), and a
connection does nothing to the machine between its turns (`Server.host_act`). So what is changed for
a connection that is alone can be read off its turns and the world that it began in
(`Server.changes_eq`).
-/

namespace LineStore

/-- A change of what is stored. -/
inductive Change
  /-- A document is kept in a file, or removed from it if there is no text. -/
  | document (file : Name) (text : Option String)
  | setting (file : Name) (text : String)
  deriving DecidableEq, Repr

/-- What a command changes if it succeeds. -/
def Command.change? (body : Option String) : Command → Option Change
  | .putSettings key level _ _ => some (.setting (Settings.fileName key level) (body.getD ""))
  | .put name _ _ => some (.document (Documents.fileName name) (some (body.getD "")))
  | .delete name => some (.document (Documents.fileName name) none)
  | _ => none

namespace Turn

variable (stores : Stores) (world : World)

/-- What a turn changes. -/
def change? : Turn → Option Change
  | dispatch command body =>
    if (stores.handle command body world).1.status = .success then command.change? body else none
  | decline _ => none

/-- The world after a turn. -/
def after : Turn → World
  | dispatch command body => (stores.handle command body world).2
  | decline _ => world

end Turn

namespace Stores

/-- What some turns change, one after the other. -/
def changes (stores : Stores) : List Turn → World → List Change
  | [], _ => []
  | turn :: turns, world =>
    (turn.change? stores world).toList ++ stores.changes turns (turn.after stores world)

/-- The world after some turns. -/
def after (stores : Stores) (turns : List Turn) (world : World) : World :=
  turns.foldl (fun world turn => turn.after stores world) world

variable {stores : Stores} {world other : World}

theorem changes_append (stores : Stores) (first second : List Turn) (world : World) :
    stores.changes (first ++ second) world =
      stores.changes first world ++ stores.changes second (stores.after first world) := by
  induction first generalizing world with
  | nil => rfl
  | cons turn first ih =>
    rw [List.cons_append, changes, changes, ih, List.append_assoc]
    rfl

/-- **A command that changes nothing leaves the tree as it was.** -/
theorem tree_of_no_change {command : Command} {body : Option String}
    (hs : ∀ root ∈ stores.writtenRoot? command, world.host.tree.Spares root world.host.hidden)
    (h : (Turn.dispatch command body).change? stores world = none) :
    (stores.handle command body world).2.host.tree = world.host.tree := by
  cases command with
  | putSettings key level client length =>
    cases hr : (stores.settings.save Ring.sink key level (body.getD "") client world.host
        world.events).1 with
    | ok _ => simp [Turn.change?, handle, hr, replyToSave, Reply.ofMessage, Command.change?] at h
    | error e => exact (Settings.refused_of_save_error hr).1.tree (hs _ rfl)
  | put name overwrite length =>
    cases hr : (stores.documents.put name (body.getD "") overwrite world.host).1 with
    | ok _ => simp [Turn.change?, handle, hr, handOut, Reply.ofPayload, Command.change?] at h
    | error e => exact Documents.tree_of_put_error (hs _ rfl) hr
  | delete name =>
    cases hr : (stores.documents.delete name world.host).1 with
    | ok _ => simp [Turn.change?, handle, hr, replyToDelete, Reply.ofMessage, Command.change?] at h
    | error e => exact congrArg Host.tree (Documents.eq_of_delete_error hr)
  | _ => rfl

/-- Whoever listens has no part in what a command does to the machine. -/
theorem handle_congr (h : world.host = other.host) (command : Command) (body : Option String) :
    (stores.handle command body world).1 = (stores.handle command body other).1 ∧
      (stores.handle command body world).2.host = (stores.handle command body other).2.host := by
  obtain ⟨host, events⟩ := world
  obtain ⟨_, events'⟩ := other
  cases h
  cases command with
  | putSettings key level client length =>
    obtain ⟨ha, hh⟩ := Settings.save_eq_keep stores.settings Ring.sink key level (body.getD "")
      client host events
    obtain ⟨ha', hh'⟩ := Settings.save_eq_keep stores.settings Ring.sink key level (body.getD "")
      client host events'
    exact ⟨congrArg replyToSave (ha.trans ha'.symm), hh.trans hh'.symm⟩
  | _ => exact ⟨rfl, rfl⟩

theorem changes_congr (h : world.host = other.host) (turns : List Turn) :
    stores.changes turns world = stores.changes turns other := by
  induction turns generalizing world other with
  | nil => rfl
  | cons turn turns ih =>
    have hh : (turn.after stores world).host = (turn.after stores other).host := by
      cases turn with
      | dispatch command body => exact (handle_congr h command body).2
      | decline reply => exact h
    have hc : turn.change? stores world = turn.change? stores other := by
      cases turn with
      | dispatch command body => rw [Turn.change?, Turn.change?, (handle_congr h command body).1]
      | decline reply => rfl
    rw [changes, changes, hc, ih hh]

end Stores

namespace Server

variable {s : Server} {address : Address}

/-- What is changed for a connection in the course of some actions. -/
def changes (s : Server) (address : Address) (actions : List Action) : List Change :=
  (s.served address actions).flatMap fun (turn, world) => (turn.change? s.stores world).toList

theorem host_answer (s : Server) (c : Connection) (command : Command) (body : Option String) :
    (s.answer c command body).world.host = (s.stores.handle command body s.world).2.host := by
  unfold answer
  dsimp only
  split
  · split <;> rfl
  · rfl
  · rfl

theorem host_forward (s : Server) (c : Connection) :
    (s.forward c).world.host = s.world.host := by
  unfold forward
  split
  · rfl
  · dsimp only
    split <;> rfl
  · rfl

/-- **A turn does to the machine what its command does**, and no other action of a connection does
anything to it. -/
theorem host_act {action : Action} (ha : action.address = address)
    (hb : action.breaks address = false) :
    (s.act action).world.host =
      ((s.turn? address action).elim s.world (·.after s.stores s.world)).host := by
  cases action with
  | arrive a => exact absurd ha (of_decide_eq_false hb)
  | lose a => exact absurd ha (of_decide_eq_false hb)
  | receive a bytes => rfl
  | finish a => rfl
  | serve a =>
    have ha : a = address := ha
    subst ha
    rw [turn?, if_pos rfl, act_serve]
    cases s.find? a with
    | none => rfl
    | some c =>
      rw [Option.elim_some, Option.bind_some]
      by_cases hb : c.subscription.isBusy = true
      · rw [if_pos hb, serve]
        cases hs : c.subscription with
        | joined id reply => rfl
        | confirmed id => rfl
        | absent | forwarding _ _ => rw [hs] at hb; cases hb
      · rw [if_neg hb, serve_of_not_busy (eq_false_of_ne_true hb), readNext]
        cases Intake.next s.limits c.ended c.input with
        | wait => rfl
        | stop => rfl
        | hangUp reply => rfl
        | refuse reply rest => rfl
        | request command body rest => exact host_answer _ c command body
  | forward a =>
    rw [act_forward]
    cases s.find? a with
    | none => rfl
    | some c => exact host_forward s c

/-- A connection alone changes what its turns change. -/
theorem changes_eq {actions : List Action} (hs : ∀ action ∈ actions, action.address = address)
    (hb : ∀ action ∈ actions, action.breaks address = false) :
    s.changes address actions =
      s.stores.changes ((s.served address actions).map Prod.fst) s.world := by
  induction actions generalizing s with
  | nil => rfl
  | cons action actions ih =>
    have hi := ih (s := s.act action) (fun a ha => hs a (List.mem_cons_of_mem _ ha))
      fun a ha => hb a (List.mem_cons_of_mem _ ha)
    have hh := host_act (s := s) (hs action List.mem_cons_self) (hb action List.mem_cons_self)
    rw [changes, stores_act] at hi
    rw [changes, served, List.flatMap_append, List.map_append, hi, Stores.changes_congr hh]
    cases s.turn? address action with
    | none => rfl
    | some turn => simp [Stores.changes]

end Server
end LineStore
