import LineStore.Json.Check
import LineStore.Proofs.Text.Ascii

/-!
# Faults of form

A text that is checked is passed over and not read, so what can be wrong with it is its form: a
character in the wrong place, or the end too soon. The wordings of these causes are fixed and quote
nothing (`Cause.isFormal`), in contrast to those about the values and members of a text that is read
as something. So the message of a check that fails is **one line, whatever the text was**
(`newline_not_mem_message`).
-/

namespace LineStore.Json

/-- Whether a cause is about the form of a text alone. -/
def Cause.isFormal : Cause → Bool
  | .wrongKind .. | .wrongValue .. | .missingMember _ | .repeatedMember _ | .wrongLength .. => false
  | _ => true

/-- If a reader fails, it is over the form of the text. -/
def Formal {α : Type} (result : Except Fault α) : Prop :=
  ∀ fault, result = .error fault → fault.cause.isFormal = true

section

variable {α β : Type} {result : Except Fault α}

@[simp] theorem formal_ok (a : α) : Formal (.ok a : Except Fault α) := fun _ h => by cases h

@[simp] theorem formal_error_iff {fault : Fault} :
    Formal (.error fault : Except Fault α) ↔ fault.cause.isFormal = true :=
  ⟨fun h => h _ rfl, fun h _ he => by cases he; exact h⟩

theorem Formal.map (h : Formal result) (f : α → β) : Formal (result.map f) := by
  cases result with
  | ok a => exact formal_ok _
  | error fault => exact formal_error_iff.2 (h _ rfl)

end

/-! ## The pieces of a text -/

theorem formal_expectEnd (s : List Char) : Formal (expectEnd s) := by
  unfold expectEnd
  split <;> simp [Fault.ahead, Cause.isFormal]

theorem formal_readColon (s : List Char) : Formal (readColon s) := by
  unfold readColon
  split
  · simp [Fault.here, Cause.isFormal]
  · split <;> simp [Fault.ahead, Cause.isFormal]

theorem formal_readWord (word s : List Char) : Formal (readWord word s) := by
  induction word generalizing s with
  | nil => exact formal_ok s
  | cons c word ih =>
    cases s with
    | nil => simp [readWord, Fault.here, Cause.isFormal]
    | cons d rest =>
      rw [readWord]
      split
      · exact ih rest
      · simp [Fault.ahead, Cause.isFormal]

theorem formal_readHex (s : List Char) : Formal (readHex s) := by
  unfold readHex
  split
  · simp [Fault.here, Cause.isFormal]
  · dsimp only
    split <;> simp [Cause.isFormal]

theorem formal_skipEscape (s : List Char) : Formal (skipEscape s) := by
  cases s with
  | nil => simp [skipEscape, Fault.here, Cause.isFormal]
  | cons c rest =>
    rw [skipEscape]
    split
    · exact formal_ok rest
    · split
      · exact (formal_readHex rest).map _
      · simp [Fault.ahead, Cause.isFormal]

theorem formal_skipStringFrom (limit : Nat) (s : List Char) : Formal (skipStringFrom limit s) := by
  induction limit generalizing s with
  | zero => simp [skipStringFrom, Fault.here, Cause.isFormal]
  | succ limit ih =>
    cases s with
    | nil => simp [skipStringFrom, Fault.here, Cause.isFormal]
    | cons c rest =>
      rw [skipStringFrom]
      split
      · exact formal_ok rest
      · split
        · have he := formal_skipEscape rest
          split
          · exact ih _
          · rename_i fault hf
            exact formal_error_iff.2 (he fault hf)
        · split
          · simp [Fault.here, Cause.isFormal]
          · exact ih rest

theorem formal_skipString (s : List Char) : Formal (skipString s) := formal_skipStringFrom _ s

theorem formal_skipExponent (s : List Char) : Formal (skipExponent s) := by
  unfold skipExponent
  dsimp only
  split
  · split <;> simp [Fault.ahead, Cause.isFormal]
  · simp [Fault.here, Cause.isFormal]

theorem formal_skipMagnitude (s : List Char) : Formal (skipMagnitude s) := by
  unfold skipMagnitude
  split
  · exact formal_skipExponent _
  · exact formal_skipExponent _
  · exact formal_ok s

theorem formal_skipAfterDigits (s : List Char) : Formal (skipAfterDigits s) := by
  unfold skipAfterDigits
  split
  · split
    · exact formal_skipMagnitude _
    · simp [Fault.ahead, Cause.isFormal]
  · exact formal_skipMagnitude s

theorem formal_skipNumber (s : List Char) : Formal (skipNumber s) := by
  unfold skipNumber
  split
  · simp [Fault.here, Cause.isFormal]
  · split
    · simp [Fault.ahead, Cause.isFormal]
    · exact formal_skipAfterDigits _
  · split
    · exact formal_skipAfterDigits _
    · simp [Fault.ahead, Cause.isFormal]

/-! ## The steps of a check -/

namespace Check

theorem formal_stepValue (opened : List Bracket) (s : List Char) : Formal (stepValue opened s) := by
  cases s with
  | nil => simp [stepValue, Fault.here, Cause.isFormal]
  | cons c rest =>
    rw [stepValue]
    split
    · exact (formal_readWord _ rest).map _
    · split
      · exact (formal_readWord _ rest).map _
      · split
        · exact (formal_readWord _ rest).map _
        · split
          · exact (formal_skipNumber rest).map _
          · split
            · exact (formal_skipNumber _).map _
            · split
              · exact (formal_skipString rest).map _
              · split
                · exact formal_ok _
                · split
                  · exact formal_ok _
                  · simp [Fault.ahead, Cause.isFormal]

theorem formal_stepName (opened : List Bracket) (s : List Char) : Formal (stepName opened s) := by
  cases s with
  | nil => simp [stepName, Fault.here, Cause.isFormal]
  | cons c rest =>
    rw [stepName]
    split
    · have hs := formal_skipString rest
      split
      · rename_i fault hf
        exact formal_error_iff.2 (hs fault hf)
      · exact (formal_readColon _).map _
    · simp [Fault.ahead, Cause.isFormal]

theorem formal_stepMember (b : Bracket) (opened : List Bracket) (s : List Char) :
    Formal (stepMember b opened s) := by
  cases b with
  | array => exact formal_stepValue _ s
  | object => exact formal_stepName _ s

theorem formal_stepNext (b : Bracket) (opened : List Bracket) (s : List Char) :
    Formal (stepNext b opened s) := by
  cases s with
  | nil => cases b <;> simp [stepNext, endsIn, Fault.here, Cause.isFormal]
  | cons c rest =>
    unfold stepNext
    dsimp only
    split
    · exact formal_ok _
    · split
      · exact formal_ok _
      · cases b <;> simp [Fault.ahead, Cause.isFormal]

theorem formal_step (state : State) (s : List Char) : Formal (step state s) := by
  unfold step
  split
  · rename_i b opened _ _
    split
    · cases b <;> simp [endsIn, Fault.here, Cause.isFormal]
    · split
      · exact formal_ok _
      · exact formal_stepMember b opened _
  · exact formal_stepNext _ _ s
  · exact formal_stepName _ s
  · exact formal_stepValue _ s

theorem formal_run (limit : Nat) (state : State) (s : List Char) : Formal (run limit state s) := by
  induction limit generalizing state s with
  | zero => simp [run, Fault.here, Cause.isFormal]
  | succ limit ih =>
    rw [run]
    split
    · exact formal_ok s
    · have hs := formal_step state (skipBlanks s)
      split
      · rename_i fault hf
        exact formal_error_iff.2 (hs fault hf)
      · exact ih _ _

end Check

/-- **A check fails over the form of the text.** -/
theorem formal_check (s : List Char) : Formal (check s) := by
  unfold check
  have hv : Formal (skipValue s) := Check.formal_run _ _ s
  split
  · rename_i fault hf
    exact formal_error_iff.2 (hv fault hf)
  · exact formal_expectEnd _

/-! ## The wording -/

theorem newline_not_mem_describe {cause : Cause} (h : cause.isFormal = true) :
    '\n' ∉ cause.describe.toList := by
  cases cause <;> cases h <;> decide +kernel

theorem newline_not_mem_message {fault : Fault} (h : fault.cause.isFormal = true) (text : String) :
    '\n' ∉ (fault.message text).toList := by
  have hw : ∀ n, '\n' ∉ Numeral.write n := fun n => Numeral.not_mem_write (by decide)
  unfold Fault.message
  simp only [String.toList_append, String.toList_ofList, List.mem_append, not_or]
  exact ⟨⟨⟨⟨newline_not_mem_describe h, by decide +kernel⟩, hw _⟩, by decide +kernel⟩, hw _⟩

end LineStore.Json
