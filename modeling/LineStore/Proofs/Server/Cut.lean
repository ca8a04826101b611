import LineStore.Proofs.Server.Changes
import LineStore.Proofs.Server.Framing

/-!
# Connections that are cut

A client may be cut off anywhere. What has arrived whole has been dealt with and stays dealt with
(`Intake.turns_append`), and a body that is not complete is dropped. But the last piece of a line is
taken for a line, so it can be a command that nobody sent (`Intake.brokenCommand?`).
`changes_prefix_iff` says when what is changed for the cut stream is still the beginning of what is
changed for the whole one, and `changes_not_prefix_of_cut_name` is a name that is cut down to the
name of another document, which is then removed.
-/

namespace LineStore

namespace Intake

variable {limits : Limits} {input piece : Bytes}

/-- The command that the piece of a line is taken for when the stream ends in it, if it is taken for
one: it has to be complete without a body. -/
def brokenCommand? (limits : Limits) (piece : Bytes) : Option Command :=
  if Text.lineEnd ∈ piece ∨ piece = [] ∨ limits.line < piece.length then none
  else
    match Utf8.decode? piece with
    | none => none
    | some text =>
      if (Command.parse text.toList).bodyLength?.getD 0 = 0 then some (.parse text.toList) else none

/-- What is left of a stream has to wait. -/
theorem next_of_left? (h : left? limits input = some piece) : next limits false piece = .wait := by
  induction input using left?.induct limits with
  | case1 input rest ho _ ih => exact ih (left?_of_onward? ho ▸ h)
  | case2 input ho hw =>
    rw [left?_of_not_onward? ho, if_pos hw] at h
    cases h
    exact hw
  | case3 input ho hw =>
    rw [left?_of_not_onward? ho, if_neg hw] at h
    cases h

/-- A line whose body is not complete comes to nothing. -/
theorem next_of_splitLine? (hw : next limits false piece = .wait) (h : Text.lineEnd ∈ piece) :
    next limits true piece = .stop := by
  cases hs : Text.splitLine? piece with
  | none => exact absurd h (Text.splitLine?_eq_none_iff.1 hs)
  | some found =>
    obtain ⟨line, behind⟩ := found
    -- With a whole line there is nothing to wait for but the rest of a body.
    have ht : ∀ ended, takeLine? ended piece = some (line, behind) := fun ended => by
      rw [takeLine?, hs]
    unfold next at hw ⊢
    rw [ht] at hw ⊢
    dsimp only at hw ⊢
    cases hd : Utf8.decode? line with
    | none => rfl
    | some text =>
      rw [hd] at hw
      dsimp only at hw ⊢
      by_cases hl : limits.line < line.length
      · rw [if_pos hl] at hw
        cases hw
      · rw [if_neg hl] at hw ⊢
        unfold withBody at hw ⊢
        split at hw
        · cases hw
        · rename_i length _
          by_cases hm : limits.body < length
          · rw [if_pos hm] at hw
            cases hw
          · rw [if_neg hm] at hw ⊢
            by_cases hb : behind.length < length
            · rw [if_pos hb]
              rfl
            · rw [if_neg hb] at hw
              split at hw <;> cases hw

/-- **What the end of a stream makes of the last piece**: the broken command, or nothing that goes
on. -/
theorem next_of_piece (hw : next limits false piece = .wait) :
    (∃ command body, brokenCommand? limits piece = some command ∧ body.getD "" = "" ∧
        next limits true piece = .request command body []) ∨
      brokenCommand? limits piece = none ∧
        (next limits true piece = .stop ∨ ∃ reply, next limits true piece = .hangUp reply) := by
  by_cases he : Text.lineEnd ∈ piece
  case pos => exact .inr ⟨if_pos (.inl he), .inl (next_of_splitLine? hw he)⟩
  by_cases hp : piece = []
  case pos => exact .inr ⟨if_pos (.inr (.inl hp)), .inl (by rw [hp]; rfl)⟩
  have hb : Begins true piece piece [] := .last he hp rfl
  unfold brokenCommand?
  cases hd : Utf8.decode? piece with
  | none => exact .inr ⟨ite_self _, .inl (next_of_not_text hb hd)⟩
  | some text =>
    by_cases hl : limits.line < piece.length
    case pos => exact .inr ⟨if_pos (.inr (.inr hl)), .inr ⟨_, next_of_long hb hd hl⟩⟩
    rw [if_neg (by simp [he, hp, hl]), next_of_line hb hd (Nat.le_of_not_lt hl)]
    dsimp only
    generalize Command.parse text.toList = command
    unfold withBody
    cases command.bodyLength? with
    | none => exact .inl ⟨command, none, rfl, rfl, rfl⟩
    | some length =>
      dsimp only
      rw [Option.getD_some]
      cases length with
      | zero => exact .inl ⟨command, some "", rfl, rfl, rfl⟩
      | succ length =>
        refine .inr ⟨if_neg (Nat.succ_ne_zero length), ?_⟩
        split
        · exact .inr ⟨_, rfl⟩
        · exact .inl (if_pos (Nat.succ_pos length))

theorem turns_of_last_request {ended : Bool} {command : Command} {body : Option String}
    (h : next limits ended input = .request command body []) :
    turns limits ended input = [.dispatch command body] := by
  rw [turns_eq, h, onward?]
  split
  · rfl
  · rw [Option.map_some, turns_ending .nothing]
    rfl

end Intake

/-- A command that needs no body changes the same with an empty one. -/
theorem Turn.change?_of_empty {stores : Stores} {world : World} {command : Command}
    {body : Option String} (h : body.getD "" = "") :
    (dispatch command body).change? stores world =
      (dispatch command none).change? stores world := by
  cases body with
  | none => rfl
  | some text =>
    rw [Option.getD_some] at h
    subst h
    cases command <;> rfl

namespace Stores

open Intake

variable {limits : Limits} {piece : Bytes}

theorem changes_of_piece (stores : Stores) (world : World)
    (hw : next limits false piece = .wait) :
    stores.changes (turns limits true piece) world =
      ((brokenCommand? limits piece).bind fun command =>
        (Turn.dispatch command none).change? stores world).toList := by
  rcases next_of_piece hw with ⟨command, body, hb, he, hn⟩ | ⟨hb, hn | ⟨reply, hn⟩⟩
  · rw [hb, turns_of_last_request hn, changes, changes, List.append_nil,
      Turn.change?_of_empty he, Option.bind_some]
  · rw [hb, turns_of_not_onward? (by rw [hn]; rfl), hn]
    rfl
  · rw [hb, turns_of_not_onward? (by rw [hn]; rfl), hn]
    rfl

end Stores

/-! ## The cut stream and the whole one -/

namespace Server

variable {s : Server} {address : Address}

/-- A run for one connection alone, up to where nothing more can be done. -/
structure Solo (s : Server) (address : Address) (actions : List Action) : Prop where
  session : Session address actions
  alone : ∀ action ∈ actions, action.address = address
  settled : ((s.act (.arrive address)).run actions).due? address = none

theorem Solo.changes_eq {registry : Registry} (hr : s.registry.insert? address = some registry)
    (hn : s.find? address = none) {actions : List Action} (h : Solo s address actions) :
    (s.act (.arrive address)).changes address actions =
      s.stores.changes (Intake.turns s.limits (finished address actions)
        (received address actions)) s.world := by
  have hh : (s.act (.arrive address)).world.host = s.world.host := by
    unfold act arrive
    dsimp only
    rw [hr]
  rw [Server.changes_eq h.alone h.session.unbroken, stores_act,
    ((answered hr hn h.session).complete h.settled).1, Stores.changes_congr hh]

theorem toList_prefix_iff {α : Type} {a? : Option α} {as : List α} :
    a?.toList <+: as ↔ ∀ a ∈ a?, as.head? = some a := by
  cases a? with
  | none => simp
  | some a =>
    cases as with
    | nil => simp
    | cons b as => simp [List.cons_prefix_cons, eq_comm]

/-- **What a cut costs.** What is changed for a stream that is cut is the beginning of what is
changed for the whole stream exactly if the piece of a line that it is cut to is no command that
changes anything, or one that makes just the change that comes next. -/
theorem changes_prefix_iff {registry : Registry}
    (hr : s.registry.insert? address = some registry) (hn : s.find? address = none)
    {cut whole : List Action} (hc : Solo s address cut) (hw : Solo s address whole)
    (hf : finished address cut = true) {more : Bytes}
    (hm : received address whole = received address cut ++ more) :
    (s.act (.arrive address)).changes address cut <+:
        (s.act (.arrive address)).changes address whole ↔
      ∀ piece ∈ Intake.left? s.limits (received address cut),
        ∀ command ∈ Intake.brokenCommand? s.limits piece,
          let world := s.stores.after (Intake.turns s.limits false (received address cut)) s.world
          ∀ change ∈ (Turn.dispatch command none).change? s.stores world,
            (s.stores.changes (Intake.turns s.limits (finished address whole) (piece ++ more))
              world).head? = some change := by
  have hcut := Intake.turns_append s.limits true (received address cut) []
  rw [List.append_nil] at hcut
  rw [hc.changes_eq hr hn, hw.changes_eq hr hn, hf, hm, hcut, Intake.turns_append,
    Stores.changes_append, Stores.changes_append, List.prefix_append_right_inj]
  cases hl : Intake.left? s.limits (received address cut) with
  | none => simp [Stores.changes]
  | some piece =>
    simp only [Option.map_some, Option.getD_some, List.append_nil, Option.mem_def,
      Option.some.injEq, forall_eq']
    rw [Stores.changes_of_piece _ _ (Intake.next_of_left? hl), toList_prefix_iff]
    simp only [Option.mem_def, Option.bind_eq_some_iff, forall_exists_index, and_imp]
    exact ⟨fun h command hb change hd => h change command hb hd,
      fun h change command hb hd => h command hb change hd⟩

/-- A server that keeps one document, `a`. -/
def keeper : Server :=
  .start { documentsRoot := "/d", settingsRoot := "/d", dictionariesRoot := "/d" }
    ⟨(Tree.empty.attach [] [0x64] .directory).attach [[0x64]] (Documents.fileName "a")
      (.file ⟨0, Utf8.encode "x", 0⟩), 0, 1, 0, fun _ => 0⟩

/-- A client sends a text and nothing more, and is served twice. -/
def sending (address : Address) (text : String) : List Action :=
  [.receive address (Utf8.encode text), .finish address, .serve address, .serve address]

/-- If only the end of the line is missing, the same is changed. -/
theorem changes_prefix_iff_without_line_end :
    let address : Address := .v4 #v[127, 0, 0, 1] 0
    let begun := keeper.act (.arrive address)
    begun.changes address (sending address "DEL a") <+:
      begun.changes address (sending address "DEL a\n") := by
  intro address begun
  have hc : Solo keeper address (sending address "DEL a") :=
    ⟨⟨by decide +kernel, by decide +kernel⟩, by decide +kernel, by decide +kernel⟩
  have hw : Solo keeper address (sending address "DEL a\n") :=
    ⟨⟨by decide +kernel, by decide +kernel⟩, by decide +kernel, by decide +kernel⟩
  have hm : received address (sending address "DEL a\n") =
      received address (sending address "DEL a") ++ [Text.lineEnd] := by decide +kernel
  refine (changes_prefix_iff rfl rfl hc hw rfl hm).2 ?_
  have hl : Intake.left? keeper.limits (received address (sending address "DEL a")) =
      some (Utf8.encode "DEL a") := by
    rw [Intake.left?_of_not_onward? (by decide +kernel), if_pos (by decide +kernel)]
    decide +kernel
  have ht : Intake.turns keeper.limits false (received address (sending address "DEL a")) = [] := by
    rw [Intake.turns_of_not_onward? (by decide +kernel)]
    decide +kernel
  have hr : Intake.turns keeper.limits true (Utf8.encode "DEL a" ++ [Text.lineEnd]) =
      [.dispatch (.delete "a") none] :=
    Intake.turns_of_last_request (by decide +kernel)
  have hb : Intake.brokenCommand? keeper.limits (Utf8.encode "DEL a") = some (.delete "a") := by
    decide +kernel
  have hd : (Turn.dispatch (.delete "a") none).change? keeper.stores keeper.world =
      some (.document (Documents.fileName "a") none) := by decide +kernel
  intro piece hp command hcommand world change hchange
  cases hl.symm.trans hp
  cases hb.symm.trans hcommand
  have hworld : world = keeper.world := by simp only [world, ht]; rfl
  rw [hworld] at hchange ⊢
  cases hd.symm.trans hchange
  rw [show finished address (sending address "DEL a\n") = true from rfl, hr]
  decide +kernel

/-- **A cut that removes a document which nobody asked to remove**: the name is cut as well, to the
name of another document. -/
theorem changes_not_prefix_of_cut_name :
    let address : Address := .v4 #v[127, 0, 0, 1] 0
    let begun := keeper.act (.arrive address)
    let cut := sending address "DEL a"
    let whole := sending address "DEL ab\n"
    Solo keeper address cut ∧ Solo keeper address whole ∧
      received address whole = received address cut ++ Utf8.encode "b\n" ∧
      begun.changes address cut = [.document (Documents.fileName "a") none] ∧
      begun.changes address whole = [] ∧
      ¬ begun.changes address cut <+: begun.changes address whole := by
  intro address begun cut whole
  have hc : begun.changes address cut = [.document (Documents.fileName "a") none] := by
    decide +kernel
  have hw : begun.changes address whole = [] := by decide +kernel
  refine ⟨⟨⟨by decide +kernel, by decide +kernel⟩, by decide +kernel, by decide +kernel⟩,
    ⟨⟨by decide +kernel, by decide +kernel⟩, by decide +kernel, by decide +kernel⟩,
    by decide +kernel, hc, hw, ?_⟩
  rw [hc, hw]
  decide +kernel

end Server
end LineStore
