import LineStore.Proofs.Files.Trail

/-!
# Places whose paths are short enough

A path is made canonical by asking about each place on the way by the place's own path. Whether one
of these is too long (`outgrows`) is a question about the way, and can be cut and joined like the
way itself: along a trail it is the one part and then the other (`Leads.outgrows_append`), and where
the walk fails nothing more is asked (`outgrows_append_of_error`). What is found on a way without
such a place has a path that can be walked itself (`fits_of_walk`).
-/

namespace LineStore

variable {loc dir : Location}

/-- A location whose own path is short enough to be walked. -/
def Location.Fits (loc : Location) : Prop := loc.display.length ≤ Path.limit

namespace Location.Fits

theorem root : Fits [] := by
  unfold Fits
  decide

theorem up (h : Fits loc) : Fits loc.tail := by
  cases loc with
  | nil => exact h
  | cons n dir =>
    cases dir with
    | nil => exact root
    | cons m above =>
      refine Nat.le_trans ?_ h
      simp [display]

end Location.Fits

namespace Tree

variable {tree : Tree} {links left : Nat} {last : Location} {steps rest : List Segment}
  {node : Node}

/-! ## One step at a time -/

/-- What a link in `dir` leads the questions to, with `rest` still to do. -/
def detour (tree : Tree) : Nat → Location → Path → List Segment → Bool
  | 0, _, _, _ => false
  | links + 1, dir, target, rest =>
    if target.isEmpty then false
    else tree.outgrows links (if target.absolute then [] else dir) (target.steps ++ rest)

theorem outgrows_eq_overruns (tree : Tree) (links : Nat) :
    tree.outgrows links = tree.overruns (tree.detour links) := by
  cases links <;> rfl

@[simp] theorem outgrows_nil : tree.outgrows links dir [] = false := by
  rw [outgrows_eq_overruns]; rfl

theorem outgrows_stays {step : Segment} (hs : step.stays = true) :
    tree.outgrows links dir (step :: rest) = tree.outgrows links dir rest := by
  rw [outgrows_eq_overruns]
  cases step with
  | blank | here => rfl
  | up | name _ => exact absurd hs (by simp [Segment.stays])

@[simp] theorem outgrows_up :
    tree.outgrows links dir (.up :: rest) = tree.outgrows links dir.tail rest := by
  rw [outgrows_eq_overruns]; rfl

theorem outgrows_name (n : Name) :
    tree.outgrows links dir (.name n :: rest) =
      if nameLimit < n.length then false
      else if Path.limit < (Location.display (n :: dir)).length then true
      else
        match tree.get? (n :: dir) with
        | some .directory => tree.outgrows links (n :: dir) rest
        | some (.link target) => tree.detour links dir (.ofBytes target) rest
        | some (.file _) | none => false := by
  rw [outgrows_eq_overruns]; rfl

/-! ## Along the way -/

theorem outgrows_of_append : ∀ links dir steps,
    tree.outgrows links dir (steps ++ rest) = false → tree.outgrows links dir steps = false := by
  apply walk_induction
  case done =>
    intro links dir _
    exact outgrows_nil
  case stay =>
    intro links dir step steps hs ih h
    rw [List.cons_append, outgrows_stays hs] at h
    rw [outgrows_stays hs]
    exact ih h
  case up =>
    intro links dir steps ih h
    rw [List.cons_append, outgrows_up] at h
    rw [outgrows_up]
    exact ih h
  case name =>
    intro links dir n steps ih jump h
    rw [List.cons_append, outgrows_name] at h
    rw [outgrows_name]
    split at h
    · rw [if_pos ‹_›]
    · rw [if_neg ‹_›]
      split at h
      · cases h
      · rw [if_neg ‹_›]
        split at h
        · exact ih h
        · cases links with
          | zero => rfl
          | succ links =>
            rw [detour] at h ⊢
            split at h
            · rw [if_pos ‹_›]
            · rw [if_neg ‹_›]
              rw [← List.append_assoc] at h
              exact jump links _ _ rfl h
        · rfl
        · rfl

/-- **Along a trail nothing is too long if nothing is on it, and nothing after it.** -/
theorem Leads.outgrows_append (h : tree.Leads links dir steps left last) :
    tree.outgrows links dir (steps ++ rest) =
      (tree.outgrows links dir steps || tree.outgrows left last rest) := by
  induction h with
  | done => rw [List.nil_append, outgrows_nil, Bool.false_or]
  | stay hs _ ih => rw [List.cons_append, outgrows_stays hs, outgrows_stays hs, ih]
  | up _ ih => rw [List.cons_append, outgrows_up, outgrows_up, ih]
  | @enter links left dir last n steps hn hd _ ih =>
    rw [List.cons_append, outgrows_name, outgrows_name, if_neg (Nat.not_lt.2 hn),
      if_neg (Nat.not_lt.2 hn), hd]
    by_cases hlong : Path.limit < (Location.display (n :: dir)).length
    · rw [if_pos hlong, if_pos hlong, Bool.true_or]
    · rw [if_neg hlong, if_neg hlong]
      exact ih
  | @hop links left dir last n target steps hn hl ht _ ih =>
    rw [List.cons_append, outgrows_name, outgrows_name, if_neg (Nat.not_lt.2 hn),
      if_neg (Nat.not_lt.2 hn), hl]
    by_cases hlong : Path.limit < (Location.display (n :: dir)).length
    · rw [if_pos hlong, if_pos hlong, Bool.true_or]
    · rw [if_neg hlong, if_neg hlong]
      simp only [detour, ht, if_neg Bool.false_ne_true]
      rw [← List.append_assoc]
      exact ih

/-- **Where the walk fails, no question follows.** -/
theorem outgrows_append_of_error {e : FileError} : ∀ links dir steps,
    (tree.walk .followed links dir steps).bind Place.entry = .error e →
      tree.outgrows links dir (steps ++ rest) = tree.outgrows links dir steps := by
  apply walk_induction
  case done =>
    intro links dir h
    rw [walk_nil] at h
    cases h
  case stay =>
    intro links dir step steps hs ih h
    rw [walk_stays hs] at h
    rw [List.cons_append, outgrows_stays hs, outgrows_stays hs]
    exact ih h
  case up =>
    intro links dir steps ih h
    rw [walk_up] at h
    rw [List.cons_append, outgrows_up, outgrows_up]
    exact ih h
  case name =>
    intro links dir n steps ih jump h
    rw [walk_name, if_neg (by simp)] at h
    rw [List.cons_append, outgrows_name, outgrows_name]
    by_cases hn : nameLimit < n.length
    · rw [if_pos hn, if_pos hn]
    · rw [if_neg hn] at h
      rw [if_neg hn, if_neg hn]
      by_cases hlong : Path.limit < (Location.display (n :: dir)).length
      · rw [if_pos hlong, if_pos hlong]
      · rw [if_neg hlong, if_neg hlong]
        cases hg : tree.get? (n :: dir) with
        | none => rfl
        | some node =>
          rw [hg] at h
          cases node with
          | directory => exact ih h
          | file f => rfl
          | link target =>
            dsimp only at h
            rw [if_neg (by simp)] at h
            cases links with
            | zero => rfl
            | succ links =>
              rw [Tree.hop] at h
              simp only [detour]
              by_cases ht : (Path.ofBytes target).isEmpty = true
              · rw [if_pos ht, if_pos ht]
              · rw [if_neg ht] at h
                rw [if_neg ht, if_neg ht, ← List.append_assoc]
                exact jump links _ _ rfl h

/-- The questions of a walk that succeeds are the same if it may pass more links. -/
theorem outgrows_more {place : Place} : ∀ links dir steps more, links ≤ more →
    tree.walk .followed links dir steps = .ok place →
    tree.outgrows more dir steps = tree.outgrows links dir steps := by
  apply walk_induction
  case done =>
    intro links dir more _ _
    rw [outgrows_nil, outgrows_nil]
  case stay =>
    intro links dir step steps hs ih more hm h
    rw [walk_stays hs] at h
    rw [outgrows_stays hs, outgrows_stays hs]
    exact ih more hm h
  case up =>
    intro links dir steps ih more hm h
    rw [walk_up] at h
    rw [outgrows_up, outgrows_up]
    exact ih more hm h
  case name =>
    intro links dir n steps ih jump more hm h
    rw [walk_name, if_neg (by simp)] at h
    rw [outgrows_name, outgrows_name]
    by_cases hn : nameLimit < n.length
    · rw [if_pos hn, if_pos hn]
    · rw [if_neg hn] at h
      rw [if_neg hn, if_neg hn]
      by_cases hlong : Path.limit < (Location.display (n :: dir)).length
      · rw [if_pos hlong, if_pos hlong]
      · rw [if_neg hlong, if_neg hlong]
        cases hg : tree.get? (n :: dir) with
        | none => rfl
        | some node =>
          rw [hg] at h
          cases node with
          | directory => exact ih more hm h
          | file f => rfl
          | link target =>
            dsimp only at h
            rw [if_neg (by simp)] at h
            cases links with
            | zero => cases h
            | succ links =>
              obtain ⟨fewer, rfl⟩ : ∃ fewer, more = fewer + 1 := ⟨more - 1, by omega⟩
              rw [Tree.hop] at h
              simp only [detour]
              by_cases ht : (Path.ofBytes target).isEmpty = true
              · rw [if_pos ht, if_pos ht]
              · rw [if_neg ht] at h
                rw [if_neg ht, if_neg ht]
                exact jump links _ _ rfl fewer (by omega) h

/-- **What is found on a way without places too long fits as well.** -/
theorem fits_of_walk : ∀ links dir steps, dir.Fits → tree.outgrows links dir steps = false →
    tree.walk .followed links dir steps = .ok (.found loc node) → loc.Fits := by
  apply walk_induction
  case done =>
    intro links dir hd _ h
    rw [walk_nil] at h
    cases h
    exact hd
  case stay =>
    intro links dir step steps hs ih hd ho h
    rw [walk_stays hs] at h
    rw [outgrows_stays hs] at ho
    exact ih hd ho h
  case up =>
    intro links dir steps ih hd ho h
    rw [walk_up] at h
    rw [outgrows_up] at ho
    exact ih hd.up ho h
  case name =>
    intro links dir n steps ih jump hd ho h
    rw [walk_name, if_neg (by simp)] at h
    rw [outgrows_name] at ho
    split at h
    · cases h
    · rw [if_neg ‹_›] at ho
      split at ho
      · cases ho
      · rename_i hfits
        split at h
        · split at h <;> cases h
        · rename_i hg
          rw [hg] at ho
          exact ih (Nat.not_lt.1 hfits) ho h
        · split at h
          · cases h
            exact Nat.not_lt.1 hfits
          · cases h
        · rename_i hg
          rw [hg] at ho
          rw [if_neg (by simp)] at h
          cases links with
          | zero => cases h
          | succ links =>
            rw [Tree.hop] at h
            simp only [detour] at ho
            split at h
            · cases h
            · rw [if_neg ‹_›] at ho
              refine jump links _ _ rfl ?_ ho h
              split
              · exact .root
              · exact hd

end Tree
end LineStore
