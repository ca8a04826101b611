import LineStore.Events.Announcement
import LineStore.Files.Tree

/-!
# Sinks

Announcements go to a sink, which may take them, refuse them or break down. A sink has a state of
its own and answers as it likes; it sees the file tree as it is when the announcement is made.
Whoever announces does not hear the answer.
-/

namespace LineStore

/-- Something that happened, on a topic. -/
structure Event where
  topic : String
  payload : Json.Value

/-- Why an announcement did not get through. -/
inductive DeliveryError
  | rejected (reason : String)
  /-- The announcement has no written form. -/
  | unwritable (reason : String)
  /-- The sink broke down. -/
  | brokenDown
  deriving DecidableEq, Repr

namespace DeliveryError

def message : DeliveryError → String
  | rejected reason => "Sink rejected notification: " ++ reason
  | unwritable reason => "Failed to serialize notification: " ++ reason
  | brokenDown => "Sink panicked while emitting notification"

end DeliveryError

/-- A sink with states `σ`. -/
abbrev Sink (σ : Type) := Tree → Event → σ → Except DeliveryError Unit × σ

/-- The topic of announcements. -/
def settingsTopic : String := "settings-update"

/-- An announcement as an event. -/
def Announcement.event (a : Announcement) : Event := ⟨settingsTopic, a.toValue⟩

/-- Hands an announcement to a sink, once, and goes on with the state that the sink is left in. -/
def Sink.announce {σ : Type} (sink : Sink σ) (a : Announcement) (tree : Tree) (state : σ) : σ :=
  (sink tree a.event state).2

end LineStore
