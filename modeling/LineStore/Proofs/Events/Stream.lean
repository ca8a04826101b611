import LineStore.Events.Ring

/-!
# A ring as a view of its stream

A ring keeps the last few events of a stream that it does not have any more. Statements about what
an observer sees are about the whole stream, so here it is written down: `Carries` says which stream
a ring has carried, and `At` where in it an observer stands. **An observer that has not fallen
behind is handed the event of the stream at its place** (`receive_eq`). What other observers do
moves neither the stream nor the place.
-/

namespace LineStore.Ring

variable {ring : Ring} {history : List Event} {id other position : Nat} {event : Event}

/-- All the events that were sent to a ring, oldest first. -/
structure Carries (ring : Ring) (history : List Event) : Prop where
  sent : ring.sent = history.length
  kept : ring.kept = history.drop (history.length - ring.slots)
  /-- The numbers of observers are not used twice. -/
  fresh : ∀ o ∈ ring.observers, o.id < ring.joined

/-- Where an observer stands in the stream. -/
def At (ring : Ring) (id position : Nat) : Prop :=
  ring.observers.find? (·.id = id) = some ⟨id, position⟩

theorem carries_ofCapacity (capacity : Nat) : (ofCapacity capacity).Carries [] :=
  ⟨rfl, List.drop_nil.symm, fun _ h => by cases h⟩

theorem Carries.emit (h : ring.Carries history) (event : Event) :
    (ring.emit event).Carries (history ++ [event]) := by
  constructor
  case sent =>
    show ring.sent + 1 = _
    rw [h.sent, List.length_append]
    rfl
  case kept =>
    have hl : ring.kept.length = min history.length ring.slots := by
      rw [h.kept, List.length_drop]
      omega
    show (ring.kept ++ [event]).drop ((ring.kept ++ [event]).length - ring.slots) = _
    rw [List.length_append, hl, h.kept, ← List.drop_append_of_le_length (by omega), List.drop_drop,
      List.length_append, List.length_singleton]
    congr 1
    show _ = history.length + 1 - ring.slots
    omega
  case fresh => exact h.fresh

theorem Carries.subscribe (h : ring.Carries history) : ring.subscribe.2.Carries history := by
  constructor
  case sent => exact h.sent
  case kept => exact h.kept
  case fresh =>
    intro o ho
    rcases List.mem_append.1 ho with ho | ho
    · exact Nat.lt_succ_of_lt (h.fresh o ho)
    · rw [List.mem_singleton.1 ho]
      exact Nat.lt_succ_self _

theorem Carries.unsubscribe (h : ring.Carries history) (id : Nat) :
    (ring.unsubscribe id).Carries history :=
  ⟨h.sent, h.kept, fun o ho => h.fresh o (List.mem_filter.1 ho).1⟩

theorem Carries.moveTo (h : ring.Carries history) (id position : Nat) :
    (ring.moveTo id position).Carries history := by
  refine ⟨h.sent, h.kept, fun o ho => ?_⟩
  obtain ⟨p, hp, rfl⟩ := List.mem_map.1 ho
  have hid : (if p.id = id then { p with position } else p).id = p.id := by split <;> rfl
  rw [hid]
  exact h.fresh p hp

theorem receive_snd (ring : Ring) (id : Nat) :
    (ring.receive id).2 = ring ∨ ∃ position, (ring.receive id).2 = ring.moveTo id position := by
  unfold receive
  split
  · exact .inl rfl
  · split
    · exact .inr ⟨_, rfl⟩
    · split
      · exact .inr ⟨_, rfl⟩
      · exact .inl rfl

theorem Carries.receive (h : ring.Carries history) (id : Nat) :
    (ring.receive id).2.Carries history := by
  rcases receive_snd ring id with hr | ⟨_, hr⟩
  · rwa [hr]
  · rw [hr]
    exact h.moveTo _ _

theorem joined_receive (ring : Ring) (id : Nat) : (ring.receive id).2.joined = ring.joined := by
  rcases receive_snd ring id with hr | ⟨_, hr⟩ <;> rw [hr]
  rfl

/-! ## Places -/

theorem At.subscribe_self (h : ring.Carries history) :
    ring.subscribe.2.At ring.joined history.length := by
  have hn : ring.observers.find? (·.id = ring.joined) = none := by
    apply List.find?_eq_none.2
    intro o ho
    have := h.fresh o ho
    simp
    omega
  show (ring.observers ++ [Observer.mk ring.joined ring.sent]).find? _ = _
  rw [List.find?_append, hn, h.sent]
  simp

theorem At.subscribe (ha : ring.At id position) : ring.subscribe.2.At id position := by
  show (ring.observers ++ _).find? _ = _
  rw [List.find?_append, ha]
  rfl

theorem At.unsubscribe (ha : ring.At id position) (hn : other ≠ id) :
    (ring.unsubscribe other).At id position := by
  show (ring.observers.filter _).find? _ = _
  rw [List.find?_filter, ← ha]
  congr 1
  funext o
  by_cases ho : o.id = id
  · simp [ho, hn.symm]
  · simp [ho]

theorem find?_moveTo (ring : Ring) (moved place id : Nat) :
    (ring.moveTo moved place).observers.find? (·.id = id) =
      (ring.observers.find? (·.id = id)).map fun o =>
        if o.id = moved then { o with position := place } else o := by
  show (ring.observers.map _).find? _ = _
  rw [List.find?_map]
  congr 2
  funext o
  show decide ((if o.id = moved then { o with position := place } else o).id = id) = _
  split <;> rfl

theorem At.moveTo (ha : ring.At id position) (hn : other ≠ id) (place : Nat) :
    (ring.moveTo other place).At id position := by
  unfold At
  rw [find?_moveTo, ha, Option.map_some, if_neg hn.symm]

theorem At.moveTo_self (ha : ring.At id position) (place : Nat) :
    (ring.moveTo id place).At id place := by
  unfold At
  rw [find?_moveTo, ha, Option.map_some, if_pos rfl]

theorem At.receive (ha : ring.At id position) (hn : other ≠ id) :
    (ring.receive other).2.At id position := by
  rcases receive_snd ring other with hr | ⟨place, hr⟩
  · rwa [hr]
  · rw [hr]
    exact ha.moveTo hn place

/-! ## What an observer is handed -/

theorem eventAt?_eq (h : ring.Carries history) (hp : history.length ≤ position + ring.slots) :
    ring.eventAt? position = history[position]? := by
  unfold eventAt?
  rw [h.sent, h.kept, List.getElem?_drop, List.length_drop]
  congr 1
  omega

theorem receive_lagged (h : ring.Carries history) (ha : ring.At id position)
    (hp : position + ring.slots < history.length) :
    ∃ lost, (ring.receive id).1 = .lagged lost := by
  refine ⟨ring.sent - ring.slots - position, ?_⟩
  rw [Ring.receive, ha]
  dsimp only
  rw [h.sent, if_pos hp]

/-- **An observer that has not fallen behind is handed the event at its place.** -/
theorem receive_eq (h : ring.Carries history) (ha : ring.At id position)
    (hp : history.length ≤ position + ring.slots) :
    ring.receive id =
      match history[position]? with
      | some event => (.event event, ring.moveTo id (position + 1))
      | none => (.empty, ring) := by
  rw [Ring.receive, ha]
  dsimp only
  rw [h.sent, if_neg (Nat.not_lt.2 hp)]
  cases hnext : history[position]? <;> simp only [eventAt?_eq h hp, hnext]

/-- Seen from the event where it joined. -/
theorem receive_next {earlier events : List Event} (h : ring.Carries (earlier ++ events))
    (ha : ring.At id (earlier.length + position))
    (hl : ∀ lost, (ring.receive id).1 ≠ .lagged lost) :
    ring.receive id =
      match events[position]? with
      | some event => (.event event, ring.moveTo id (earlier.length + position + 1))
      | none => (.empty, ring) := by
  have hp : (earlier ++ events).length ≤ earlier.length + position + ring.slots := by
    apply Nat.not_lt.1
    intro hlt
    obtain ⟨lost, hlost⟩ := receive_lagged h ha hlt
    exact hl lost hlost
  have hnext : (earlier ++ events)[earlier.length + position]? = events[position]? := by
    rw [List.getElem?_append_right (Nat.le_add_right _ _), Nat.add_sub_cancel_left]
  rw [receive_eq h ha hp, hnext]

end LineStore.Ring
