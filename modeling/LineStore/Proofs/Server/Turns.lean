import LineStore.Server.Intake

/-!
# The requests in a stream of bytes

`Intake.next` says what a stream begins with. Taken again and again, it says everything that is done
about a stream: its `turns`. A server does not have the whole stream before it. But once it does not
have to wait, more bytes make no difference to what it does next (`next_extend`), so what it has
done already stays what it has to do about the longer stream, and what is left is a matter of the
bytes that are left (`turns_append`).
-/

namespace LineStore

/-- What is done about one request. -/
inductive Turn
  /-- The command is carried out, and answered. -/
  | dispatch (command : Command) (body : Option String)
  /-- The request is turned down with this reply. -/
  | decline (reply : Reply)
  deriving DecidableEq, Repr

namespace Intake

/-- What is done about the first request. -/
def turn? : Intake → Option Turn
  | wait => none
  | stop => none
  | hangUp reply => some (.decline reply)
  | refuse reply _ => some (.decline reply)
  | request command body _ => some (.dispatch command body)

/-- The bytes to go on with after that, unless the connection waits or ends there. -/
def onward? : Intake → Option Bytes
  | refuse _ rest => some rest
  | request command _ rest => if command = .quit then none else some rest
  | _ => none

/-- Where nothing is done, the connection does not go on. -/
theorem onward?_of_not_turn? {intake : Intake} (h : intake.turn? = none) :
    intake.onward? = none := by
  cases intake with
  | wait | stop | hangUp => rfl
  | refuse | request => cases h

/-- The same beginning, in a stream that goes on. -/
def extend (more : Bytes) : Intake → Intake
  | refuse reply rest => refuse reply (rest ++ more)
  | request command body rest => request command body (rest ++ more)
  | intake => intake

@[simp] theorem turn?_extend (more : Bytes) (intake : Intake) :
    (intake.extend more).turn? = intake.turn? := by
  cases intake <;> rfl

theorem onward?_extend (more : Bytes) (intake : Intake) :
    (intake.extend more).onward? = intake.onward?.map (· ++ more) := by
  cases intake with
  | request command body rest =>
    simp only [extend, onward?]
    split <;> rfl
  | _ => rfl

/-! ## More bytes -/

/-- A stream may go on with `more`, and end, unless it has ended. -/
def Continues (ended ended' : Bool) (more : Bytes) : Prop :=
  ended = true → ended' = true ∧ more = []

variable {limits : Limits} {ended ended' : Bool} {input more line rest : Bytes}

theorem length_of_takeLine? (h : takeLine? ended input = some (line, rest)) :
    rest.length < input.length := by
  unfold takeLine? at h
  split at h
  · rename_i found hs
    cases h
    exact Text.length_of_splitLine? hs
  · split at h
    · rename_i he
      cases h
      rw [Bool.and_eq_true] at he
      exact List.length_pos_iff.2 (by simpa using he.2)
    · cases h

theorem takeLine?_extend (hc : Continues ended ended' more)
    (h : takeLine? ended input = some (line, rest)) :
    takeLine? ended' (input ++ more) = some (line, rest ++ more) := by
  unfold takeLine? at h
  split at h
  · rename_i found hs
    cases h
    obtain ⟨front, hf, rfl, rfl⟩ := Text.eq_of_splitLine? hs
    unfold takeLine?
    rw [List.append_assoc, List.append_assoc, List.singleton_append, Text.splitLine?_append _ hf]
  · rename_i hs
    split at h
    · rename_i he
      obtain ⟨rfl, rfl⟩ := hc (by simp_all)
      cases h
      simp_all [takeLine?]
    · cases h

theorem onward?_withBody {command : Command} (h : (withBody limits ended command input).onward? =
    some rest) : rest.length ≤ input.length := by
  unfold withBody at h
  split at h
  · simp only [onward?] at h
    split at h
    · cases h
    · cases h
      exact Nat.le_refl _
  · split at h
    · cases h
    · split at h
      · split at h <;> cases h
      · split at h
        · simp only [onward?] at h
          split at h
          · cases h
          · cases h
            simp
        · cases h
          simp

/-- A request has at least one byte. -/
theorem length_of_onward? (h : (next limits ended input).onward? = some rest) :
    rest.length < input.length := by
  unfold next at h
  split at h
  · split at h <;> cases h
  · rename_i line behind ht
    have hl := length_of_takeLine? ht
    split at h
    · cases h
    · split at h
      · cases h
      · have := onward?_withBody h
        omega

theorem withBody_extend {command : Command} (hc : Continues ended ended' more)
    (h : withBody limits ended command input ≠ .wait) :
    withBody limits ended' command (input ++ more) =
      (withBody limits ended command input).extend more := by
  unfold withBody at h ⊢
  cases hb : command.bodyLength? with
  | none => rfl
  | some length =>
    rw [hb] at h
    dsimp only at h ⊢
    by_cases hm : limits.body < length
    · rw [if_pos hm, if_pos hm]
      rfl
    · rw [if_neg hm] at h ⊢
      rw [if_neg hm]
      by_cases hl : input.length < length
      · rw [if_pos hl] at h ⊢
        cases ended with
        | false => exact absurd rfl h
        | true =>
          -- The body is cut short for good: nothing comes after the end.
          obtain ⟨rfl, rfl⟩ := hc rfl
          rw [List.append_nil, if_pos hl]
          rfl
      · have hle : length ≤ input.length := Nat.le_of_not_lt hl
        rw [if_neg hl, if_neg (by rw [List.length_append]; omega),
          List.take_append_of_le_length hle, List.drop_append_of_le_length hle]
        split <;> rfl

/-- **What a stream begins with is settled as soon as there is no need to wait.** -/
theorem next_extend (hc : Continues ended ended' more) (h : next limits ended input ≠ .wait) :
    next limits ended' (input ++ more) = (next limits ended input).extend more := by
  unfold next at h ⊢
  cases ht : takeLine? ended input with
  | none =>
    rw [ht] at h
    cases ended with
    | false => exact absurd rfl h
    | true =>
      obtain ⟨rfl, rfl⟩ := hc rfl
      rw [List.append_nil, ht]
      rfl
  | some found =>
    obtain ⟨line, rest⟩ := found
    rw [ht] at h
    rw [takeLine?_extend hc ht]
    dsimp only at h ⊢
    cases hd : Utf8.decode? line with
    | none => rfl
    | some text =>
      rw [hd] at h
      dsimp only at h ⊢
      by_cases hl : limits.line < line.length
      · rw [if_pos hl, if_pos hl]
        rfl
      · rw [if_neg hl] at h ⊢
        rw [if_neg hl]
        exact withBody_extend hc h

/-! ## All turns -/

/-- Everything that is done about a stream: about each request in turn, until the connection waits
or ends. -/
def turns (limits : Limits) (ended : Bool) (input : Bytes) : List Turn :=
  (next limits ended input).turn?.toList ++
    match h : (next limits ended input).onward? with
    | some rest =>
      have := length_of_onward? h
      turns limits ended rest
    | none => []
termination_by input.length

/-- What is left of a stream that has not ended when the connection has to wait, if it comes to
that. -/
def left? (limits : Limits) (input : Bytes) : Option Bytes :=
  match h : (next limits false input).onward? with
  | some rest =>
    have := length_of_onward? h
    left? limits rest
  | none => if next limits false input = .wait then some input else none
termination_by input.length

theorem turns_of_onward? (h : (next limits ended input).onward? = some rest) :
    turns limits ended input =
      (next limits ended input).turn?.toList ++ turns limits ended rest := by
  rw [turns]
  split <;> simp_all

theorem turns_of_not_onward? (h : (next limits ended input).onward? = none) :
    turns limits ended input = (next limits ended input).turn?.toList := by
  rw [turns]
  split <;> simp_all

theorem turns_eq (limits : Limits) (ended : Bool) (input : Bytes) :
    turns limits ended input = (next limits ended input).turn?.toList ++
      ((next limits ended input).onward?.map (turns limits ended)).getD [] := by
  cases h : (next limits ended input).onward? with
  | none => simp [turns_of_not_onward? h]
  | some rest => simp [turns_of_onward? h]

theorem left?_of_onward? (h : (next limits false input).onward? = some rest) :
    left? limits input = left? limits rest := by
  rw [left?]
  split <;> simp_all

theorem left?_of_not_onward? (h : (next limits false input).onward? = none) :
    left? limits input = if next limits false input = .wait then some input else none := by
  rw [left?]
  split <;> simp_all

/-- The first turn about a stream is the first turn about any continuation. -/
theorem turns_continue (hc : Continues ended ended' more) (h : next limits ended input ≠ .wait) :
    turns limits ended' (input ++ more) = (next limits ended input).turn?.toList ++
      ((next limits ended input).onward?.map (turns limits ended' <| · ++ more)).getD [] := by
  rw [turns_eq, next_extend hc h, turn?_extend, onward?_extend, Option.map_map]
  rfl

/-- **Turns that were taken stand**, whatever comes after them. -/
theorem turns_append (limits : Limits) (ended : Bool) (input more : Bytes) :
    turns limits ended (input ++ more) = turns limits false input ++
      ((left? limits input).map (turns limits ended <| · ++ more)).getD [] := by
  have hc : Continues false ended more := fun h => by cases h
  -- The recursion takes the turns of the settled part; the rest is what `left?` hands over.
  induction input using left?.induct limits with
  | case1 input rest ho _ ih =>
    have hw : next limits false input ≠ .wait := fun hw => by
      rw [hw] at ho
      cases ho
    rw [turns_continue hc hw, ho, turns_of_onward? ho, left?_of_onward? ho, List.append_assoc,
      Option.map_some, Option.getD_some, ih]
  | case2 input ho hw =>
    rw [turns_of_not_onward? ho, left?_of_not_onward? ho, hw, if_pos rfl]
    rfl
  | case3 input ho hw =>
    rw [turns_of_not_onward? ho, left?_of_not_onward? ho, turns_continue hc hw, ho, if_neg hw]

end Intake
end LineStore
