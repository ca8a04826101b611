import LineStore.Events.Sink

/-!
# The event ring

Events go out to any number of observers through one bounded ring. Each observer has a place in the
stream of events; events are never held back for the slow, so an observer that falls behind by more
than the ring holds finds its oldest events gone. It is told how many, and goes on with the oldest
one that is left.

Places are positions in the whole stream, counted from its beginning. An observer is at most `slots`
positions behind, or it has lost something.
-/

namespace LineStore

/-- An observer, and the position of the event it sees next. -/
structure Observer where
  id : Nat
  position : Nat
  deriving DecidableEq, Repr

/-- A stream of events of which the last few are kept. -/
structure Ring where
  /-- How many events are kept. -/
  slots : Nat
  /-- How many events there have been. -/
  sent : Nat
  /-- The events that are kept, oldest first. -/
  kept : List Event
  observers : List Observer
  /-- How many observers there have been. -/
  joined : Nat

/-- What an observer that asks for an event gets. -/
inductive Receipt
  | event (event : Event)
  /-- There is nothing new. -/
  | empty
  /-- The observer has left. -/
  | gone
  /-- Events were lost. -/
  | lagged (lost : Nat)

namespace Ring

/-- How many events are kept where `capacity` are asked for: at least one, and from there on to the
next power of two. -/
def slotsFor (capacity : Nat) : Nat := 1 <<< Nat.log2 (2 * max capacity 1 - 1)

theorem le_slotsFor (capacity : Nat) : max capacity 1 ≤ slotsFor capacity := by
  have h := Nat.lt_log2_self (n := 2 * max capacity 1 - 1)
  rw [Nat.pow_succ] at h
  rw [slotsFor, Nat.one_shiftLeft]
  omega

/-- No power of two below it would do. -/
theorem slotsFor_lt (capacity : Nat) : slotsFor capacity < 2 * max capacity 1 := by
  have h := Nat.log2_self_le (n := 2 * max capacity 1 - 1) (by omega)
  rw [slotsFor, Nat.one_shiftLeft]
  omega

/-- A ring for `capacity` events. -/
def ofCapacity (capacity : Nat) : Ring := ⟨slotsFor capacity, 0, [], [], 0⟩

/-- A new observer, who sees what is sent from now on. -/
def subscribe (ring : Ring) : Nat × Ring :=
  (ring.joined,
    { ring with
      observers := ring.observers ++ [⟨ring.joined, ring.sent⟩]
      joined := ring.joined + 1 })

/-- The ring without an observer. -/
def unsubscribe (ring : Ring) (id : Nat) : Ring :=
  { ring with observers := ring.observers.filter (·.id ≠ id) }

/-- Sends an event, whether anyone observes or not. -/
def emit (ring : Ring) (event : Event) : Ring :=
  let kept := ring.kept ++ [event]
  { ring with kept := kept.drop (kept.length - ring.slots), sent := ring.sent + 1 }

/-- The kept event at a position. -/
def eventAt? (ring : Ring) (position : Nat) : Option Event :=
  ring.kept[position + ring.kept.length - ring.sent]?

/-- The ring with an observer moved. -/
def moveTo (ring : Ring) (id position : Nat) : Ring :=
  { ring with
    observers := ring.observers.map fun o => if o.id = id then { o with position } else o }

/-- What an observer gets, and the ring after that. -/
def receive (ring : Ring) (id : Nat) : Receipt × Ring :=
  match ring.observers.find? (·.id = id) with
  | none => (.gone, ring)
  | some o =>
    -- The event it would see next is no longer kept.
    if o.position + ring.slots < ring.sent then
      (.lagged (ring.sent - ring.slots - o.position), ring.moveTo id (ring.sent - ring.slots))
    else
      match ring.eventAt? o.position with
      | some event => (.event event, ring.moveTo id (o.position + 1))
      | none => (.empty, ring)

/-- The sink that sends announcements to the observers of a ring. -/
def sink : Sink Ring := fun _ event ring => (.ok (), ring.emit event)

end Ring
end LineStore
