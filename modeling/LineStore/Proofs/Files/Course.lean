import Mathlib.Data.Nat.Find
import LineStore.Proofs.Files.Folder
import LineStore.Proofs.Files.Unseen

/-!
# The course of a write

`course` is a write step by step, with nobody else about: at each step a portion of any size is put
down, at any time. A course ends (`course_ends`), and it has one turning point. `Before` it the tree
is the one that the write found, or that and the hidden file; `After` it the target's entry is the
complete file, and the hidden name is there for one step more or is gone. Each is one lemma about
one step, `Before.advance` and `After.advance`; what a whole course does follows by induction on the
number of steps (`course_error`, `course_ok`).
-/

namespace LineStore

/-- More steps than this are not to come. -/
def WritePhase.left (content : Bytes) : WritePhase → Nat
  | opening => content.length + 4
  | writing _ rest => rest.length + 3
  | publishing => 2
  | clearing _ => 1
  | done _ => 0

/-- The tree, or the tree and one file besides, called `m`, in the directory that the path leads to.
-/
def Tree.Veiled (tree : Tree) (root : Path) (m : Name) (other : Tree) : Prop :=
  other = tree ∨ ∃ home, tree.Opens root home ∧ tree.Besides home m other

namespace AtomicWrite

variable {w : AtomicWrite} {tree t : Tree} {root near : Path} {home : Location} {m n : Name}
  {moves : Nat → Nat × Instant} {phase : WritePhase} {time : Instant}

/-- The phase and the tree after a number of steps. Each move says how many bytes a write puts down
and what time it is. -/
def course (w : AtomicWrite) (moves : Nat → Nat × Instant) (tree : Tree) : Nat → WritePhase × Tree
  | 0 => (w.phase, tree)
  | i + 1 =>
    { w with phase := (w.course moves tree i).1 }.advance (moves i).1 (moves i).2
      (w.course moves tree i).2

theorem steps_succ (chunk : Nat) (now : Instant) (i : Nat) (state : AtomicWrite × Tree) :
    steps chunk now (i + 1) state =
      (steps chunk now i state).1.step chunk now (steps chunk now i state).2 := by
  induction i generalizing state with
  | zero => rfl
  | succ i ih => exact ih (state.1.step chunk now state.2)

theorem steps_eq_course (w : AtomicWrite) (chunk : Nat) (now : Instant) (tree : Tree) (i : Nat) :
    steps chunk now i (w, tree) =
      ({ w with phase := (w.course (fun _ => (chunk, now)) tree i).1 },
        (w.course (fun _ => (chunk, now)) tree i).2) := by
  induction i with
  | zero => rfl
  | succ i ih =>
    rw [steps_succ, ih]
    rfl

/-- The write as a whole is the end of one of its courses. -/
theorem course_run (hw : w.phase = .opening) (now : Instant) :
    w.course (fun _ => (w.content.length, now)) tree 4 =
      (.done (w.run now tree).1, (w.run now tree).2) := by
  have hsteps := steps_eq_course w w.content.length now tree 4
  rw [steps_four hw] at hsteps
  have hphase := congrArg (·.1.phase) hsteps
  have htree := congrArg (·.2) hsteps
  exact Prod.ext hphase.symm htree.symm

/-! ## The end of a course -/

theorem left_afterBytes (content : Bytes) (file : Nat) (rest : Bytes) :
    (afterBytes file rest).left content ≤ rest.length + 3 := by
  unfold afterBytes
  split
  · show 2 ≤ rest.length + 3
    omega
  · exact Nat.le_refl _

/-- Every step but those that are none brings the write nearer to its end. -/
theorem left_advance (w : AtomicWrite) (chunk : Nat) (now : Instant) (tree : Tree) :
    (w.advance chunk now tree).1.left w.content ≤ w.phase.left w.content - 1 := by
  unfold advance
  cases w.phase with
  | opening =>
    dsimp only
    cases tree.create w.temp now with
    | ok made => exact left_afterBytes _ _ _
    | error e => exact Nat.le_add_left 1 (w.content.length + 2)
  | writing file rest =>
    dsimp only
    have hdrop := left_afterBytes w.content file (rest.drop (max 1 chunk))
    rw [List.length_drop] at hdrop
    show _ ≤ rest.length + 3 - 1
    cases hr : rest with
    | nil =>
      rw [List.drop_nil]
      exact Nat.le_refl 2
    | cons b more =>
      rw [hr] at hdrop
      rw [List.length_cons] at hdrop ⊢
      omega
  | publishing =>
    dsimp only
    cases w.publish tree with
    | ok after => cases w.mode <;> simp [afterPublish, WritePhase.left]
    | error e => exact Nat.le_refl 1
  | clearing outcome => exact Nat.le_refl 0
  | done outcome => exact Nat.le_refl 0

theorem left_course (w : AtomicWrite) (moves : Nat → Nat × Instant) (tree : Tree) (i : Nat) :
    (w.course moves tree i).1.left w.content ≤ w.phase.left w.content - i := by
  induction i with
  | zero => exact Nat.le_refl _
  | succ i ih =>
    have hstep := left_advance { w with phase := (w.course moves tree i).1 } (moves i).1 (moves i).2
      (w.course moves tree i).2
    have hstep' : (w.course moves tree (i + 1)).1.left w.content ≤
        (w.course moves tree i).1.left w.content - 1 := hstep
    omega

/-- A write that is done stays as it is. -/
theorem course_of_done {i j : Nat} {outcome : Except FileError Unit}
    (h : (w.course moves tree i).1 = .done outcome) (hj : i ≤ j) :
    w.course moves tree j = (.done outcome, (w.course moves tree i).2) := by
  obtain ⟨d, rfl⟩ := Nat.exists_eq_add_of_le hj
  induction d with
  | zero => rw [← h]; rfl
  | succ d ih =>
    rw [← Nat.add_assoc, course, ih (Nat.le_add_right i d)]
    rfl

/-- **A course ends**, however small the portions are. -/
theorem course_ends (hw : w.phase = .opening) : ∃ outcome,
    (w.course moves tree (w.content.length + 4)).1 = .done outcome := by
  have hl := left_course w moves tree (w.content.length + 4)
  rw [hw] at hl
  have hz : (w.course moves tree (w.content.length + 4)).1.left w.content = 0 := by
    have : WritePhase.opening.left w.content = w.content.length + 4 := rfl
    omega
  cases hp : (w.course moves tree (w.content.length + 4)).1 with
  | done outcome => exact ⟨outcome, rfl⟩
  | opening | writing _ _ | publishing | clearing _ =>
    rw [hp, WritePhase.left] at hz
    omega

/-! ## Before and after the turning point -/

/-- Up to its turning point, the write has added the hidden file to the tree, if anything. -/
inductive Before (w : AtomicWrite) (tree : Tree) (near : Path) (home : Location) (m : Name) :
    WritePhase → Tree → Prop
  | opening : Before w tree near home m .opening tree
  | writing {written rest : Bytes} (hm : near.refusal? m = none)
      (h : written ++ rest = w.content) (hr : rest ≠ []) (time : Instant) :
      Before w tree near home m (.writing tree.freshId rest)
        (tree.attach home m (.file ⟨tree.freshId, written, time⟩))
  | publishing (hm : near.refusal? m = none) (time : Instant) :
      Before w tree near home m .publishing (tree.attach home m (w.published time tree))
  | failing (hm : near.refusal? m = none) (e : FileError) (time : Instant) :
      Before w tree near home m (.clearing (.error e))
        (tree.attach home m (w.published time tree))
  | refused (hm : near.refusal? m ≠ none) (e : FileError) :
      Before w tree near home m (.clearing (.error e)) tree
  | failed (e : FileError) : Before w tree near home m (.done (.error e)) tree

/-- From its turning point on, the complete file has the name `n`, and for one more step the hidden
name as well if it was published by a second name. -/
inductive After (w : AtomicWrite) (tree : Tree) (home : Location) (m n : Name) (time : Instant) :
    WritePhase → Tree → Prop
  | linked (ho : tree.get? (n :: home) = none) :
      After w tree home m n time (.clearing (.ok ()))
        ((tree.attach home m (w.published time tree)).attach home n (w.published time tree))
  | published : After w tree home m n time (.done (.ok ()))
      (tree.place home n (w.published time tree))

/-- The write has gone over its turning point, in the directory at `home`. -/
structure Turned (w : AtomicWrite) (tree : Tree) (near root : Path) (home : Location)
    (m n : Name) (time : Instant) (phase : WritePhase) (t : Tree) : Prop where
  target : w.target = root.child n
  free : hindrance? tree near root home m n w.mode = none
  after : w.After tree home m n time phase t

/-- The hidden file is complete once there is nothing left to write. -/
theorem Before.of_afterBytes {written rest : Bytes} (hm : near.refusal? m = none)
    (h : written ++ rest = w.content) (time : Instant) :
    w.Before tree near home m (afterBytes tree.freshId rest)
      (tree.attach home m (.file ⟨tree.freshId, written, time⟩)) := by
  unfold afterBytes
  split
  · rename_i hr
    rw [hr, List.append_nil] at h
    rw [h]
    exact .publishing hm time
  · exact .writing hm h ‹_› time

theorem advance_publishing_ok {after : Tree} (h : w.publish t = .ok after) (chunk : Nat)
    (now : Instant) :
    { w with phase := .publishing }.advance chunk now t = (afterPublish w.mode, after) := by
  have hp : { w with phase := .publishing }.publish t = .ok after := h
  simp only [advance, hp]

theorem advance_publishing_error {e : FileError} (h : w.publish t = .error e) (chunk : Nat)
    (now : Instant) :
    { w with phase := .publishing }.advance chunk now t = (.clearing (.error e), t) := by
  have hp : { w with phase := .publishing }.publish t = .error e := h
  simp only [advance, hp]

section Opened

variable (ho : tree.Opens root home) (hnear : tree.Opens near home) (htemp : w.temp = near.child m)
  (hv : tree.get? (m :: home) = none) (hne : ∀ n, w.target = root.child n → m ≠ n)
  (hchild : ∀ t after, w.publish t = .ok after → ∃ n, w.target = root.child n)

include ho hnear htemp hv

omit hnear htemp in
theorem Before.veiled (h : w.Before tree near home m phase t) : tree.Veiled root m t := by
  have besides : ∀ file, tree.Veiled root m (tree.attach home m (.file file)) := fun file =>
    .inr ⟨home, ho, .attach ho.directory hv file⟩
  cases h with
  | opening | refused _ _ | failed _ => exact .inl rfl
  | writing _ _ _ _ | publishing _ _ | failing _ _ _ => exact besides _

omit ho in
theorem After.advance (hn : m ≠ n) (hm : near.refusal? m = none)
    (h : w.After tree home m n time phase t) (chunk : Nat) (now : Instant) :
    w.After tree home m n time ({ w with phase }.advance chunk now t).1
      ({ w with phase }.advance chunk now t).2 := by
  cases h with
  | linked hnone =>
    have hclear := clear_linked hnear htemp hm hv hnone hn time
    show w.After tree home m n time (.done (.ok ())) (w.clear _)
    rw [hclear]
    exact .published
  | published => exact .published

/-- To publish is to turn. -/
theorem turned_of_publish_ok {after : Tree} (ht : w.target = root.child n) (hn : m ≠ n)
    (hm : near.refusal? m = none)
    (h : w.publish (tree.attach home m (w.published time tree)) = .ok after) :
    w.Turned tree near root home m n time (afterPublish w.mode) after := by
  cases hmode : w.mode with
  | replace =>
    rw [publish_replace ho ht hnear htemp hmode hm hv hn] at h
    cases hx : (root.refusal? n).or (obstacle? .replace (tree.get? (n :: home))) with
    | some e => rw [hx] at h; cases h
    | none =>
      rw [hx] at h
      cases h
      refine ⟨ht, ?_, .published⟩
      rw [hindrance?, hm, hmode, Option.none_or]
      exact hx
  | createNew =>
    rw [publish_createNew ho ht hnear htemp hmode hm hv hn] at h
    cases hx : (root.refusal? n).or (obstacle? .createNew (tree.get? (n :: home))) with
    | some e => rw [hx] at h; cases h
    | none =>
      rw [hx] at h
      cases h
      refine ⟨ht, ?_, .linked (vacant_of_obstacle? (Option.or_eq_none_iff.1 hx).2)⟩
      rw [hindrance?, hm, hmode, Option.none_or]
      exact hx

include hne hchild

/-- **What one step does before the turning point.** -/
theorem Before.advance (h : w.Before tree near home m phase t) (chunk : Nat) (now : Instant) :
    w.Before tree near home m ({ w with phase }.advance chunk now t).1
        ({ w with phase }.advance chunk now t).2 ∨
      ∃ n time, w.Turned tree near root home m n time ({ w with phase }.advance chunk now t).1
        ({ w with phase }.advance chunk now t).2 := by
  cases h with
  | opening =>
    refine .inl ?_
    rw [AtomicWrite.advance]
    dsimp only
    rw [htemp, hnear.create_child hv]
    cases hm : near.refusal? m with
    | some e => exact .refused (by rw [hm]; simp) e
    | none => exact .of_afterBytes hm (List.nil_append _) now
  | @writing written rest hm hc hr time =>
    refine .inl ?_
    rw [AtomicWrite.advance]
    dsimp only
    rw [Tree.append_attach _ _ _ _ ho.directory hv]
    apply Before.of_afterBytes hm
    rw [List.append_assoc, List.take_append_drop]
    exact hc
  | publishing hm time =>
    cases hp : w.publish (tree.attach home m (w.published time tree)) with
    | error e =>
      rw [advance_publishing_error hp]
      exact .inl (.failing hm e time)
    | ok after =>
      obtain ⟨n, hn⟩ := hchild _ _ hp
      rw [advance_publishing_ok hp]
      exact .inr ⟨n, time, turned_of_publish_ok ho hnear htemp hv hn (hne n hn) hm hp⟩
  | failing hm e time =>
    refine .inl ?_
    show w.Before tree near home m (.done (.error e)) (w.clear _)
    rw [clear_hidden hnear htemp hm hv]
    exact .failed e
  | refused hm e =>
    refine .inl ?_
    show w.Before tree near home m (.done (.error e)) (w.clear _)
    cases hr : near.refusal? m with
    | none => exact absurd hr hm
    | some e' =>
      rw [clear_refused hnear htemp hr]
      exact .failed e
  | failed e => exact .inl (.failed e)

end Opened

theorem Turned.advance (hnear : tree.Opens near home) (htemp : w.temp = near.child m)
    (hv : tree.get? (m :: home) = none) (hn : m ≠ n)
    (h : w.Turned tree near root home m n time phase t) (chunk : Nat) (now : Instant) :
    w.Turned tree near root home m n time ({ w with phase }.advance chunk now t).1
      ({ w with phase }.advance chunk now t).2 := by
  refine ⟨h.target, h.free, h.after.advance hnear htemp hv hn ?_ chunk now⟩
  have hx := h.free
  rw [hindrance?] at hx
  exact (Option.or_eq_none_iff.1 (Option.or_eq_none_iff.1 hx).1).1

/-- What a write comes to where its path leads to no directory: to nothing, at any step. -/
inductive Vain (tree : Tree) : WritePhase → Prop
  | opening : Vain tree .opening
  | writing (rest : Bytes) : Vain tree (.writing tree.freshId rest)
  | publishing : Vain tree .publishing
  | clearing (e : FileError) : Vain tree (.clearing (.error e))
  | done (e : FileError) : Vain tree (.done (.error e))

theorem Vain.of_afterBytes (tree : Tree) (rest : Bytes) :
    Vain tree (afterBytes tree.freshId rest) := by
  unfold afterBytes
  split
  · exact .publishing
  · exact .writing rest

theorem Vain.advance (hs : tree.Shut near) (htemp : w.temp = near.child m) (h : Vain tree phase)
    (chunk : Nat) (now : Instant) :
    Vain tree ({ w with phase }.advance chunk now tree).1 ∧
      ({ w with phase }.advance chunk now tree).2 = tree := by
  cases h with
  | opening =>
    rw [AtomicWrite.advance]
    dsimp only
    rw [htemp]
    rcases hs.create m now with ⟨e, he⟩ | hc
    · rw [he]
      exact ⟨.clearing e, rfl⟩
    · rw [hc]
      exact ⟨.of_afterBytes tree w.content, rfl⟩
  | writing rest => exact ⟨.of_afterBytes tree _, Tree.setFile_freshId ..⟩
  | publishing =>
    obtain ⟨e, he⟩ := publish_shut hs htemp
    rw [advance_publishing_error he]
    exact ⟨.clearing e, rfl⟩
  | clearing e => exact ⟨.done e, clear_shut hs htemp⟩
  | done e => exact ⟨.done e, rfl⟩

/-! ## Whole courses -/

section Whole

variable (moves) (hphase : w.phase = .opening) (htemp : w.temp = near.child m)

include hphase htemp

theorem course_shut (hs : tree.Shut near) (i : Nat) :
    Vain tree (w.course moves tree i).1 ∧ (w.course moves tree i).2 = tree := by
  induction i with
  | zero =>
    rw [course, hphase]
    exact ⟨.opening, rfl⟩
  | succ i ih =>
    obtain ⟨hvain, htree⟩ := ih
    rw [course, htree]
    exact hvain.advance hs htemp _ _

variable (hnear : near.Alike root) (hne : ∀ n, w.target = root.child n → m ≠ n)
  (hchild : ∀ t after, w.publish t = .ok after → ∃ n, w.target = root.child n)

include hnear hne hchild

theorem course_opened (ho : tree.Opens root home) (hv : tree.get? (m :: home) = none) (i : Nat) :
    w.Before tree near home m (w.course moves tree i).1 (w.course moves tree i).2 ∨
      ∃ n time, w.Turned tree near root home m n time (w.course moves tree i).1
        (w.course moves tree i).2 := by
  induction i with
  | zero =>
    rw [course, hphase]
    exact .inl .opening
  | succ i ih =>
    rw [course]
    rcases ih with hb | ⟨n, time, ht⟩
    · exact hb.advance ho (ho.alike hnear) htemp hv hne hchild _ _
    · exact .inr ⟨n, time, ht.advance (ho.alike hnear) htemp hv (hne n ht.target) _ _⟩

omit hphase hchild in
/-- There is no way back over the turning point. -/
theorem turned_of_le {i j : Nat} (ho : tree.Opens root home) (hv : tree.get? (m :: home) = none)
    (h : w.Turned tree near root home m n time (w.course moves tree i).1 (w.course moves tree i).2)
    (hj : i ≤ j) :
    w.Turned tree near root home m n time (w.course moves tree j).1 (w.course moves tree j).2 := by
  obtain ⟨d, rfl⟩ := Nat.exists_eq_add_of_le hj
  induction d with
  | zero => exact h
  | succ d ih =>
    rw [← Nat.add_assoc, course]
    exact (ih (Nat.le_add_right i d)).advance (ho.alike hnear) htemp hv (hne n h.target) _ _

/-- A write that fails at the end has never been over its turning point. -/
theorem before_of_course_error (ho : tree.Opens root home) (hv : tree.get? (m :: home) = none)
    {last : Nat} {e : FileError} (h : (w.course moves tree last).1 = .done (.error e)) {i : Nat}
    (hi : i ≤ last) :
    w.Before tree near home m (w.course moves tree i).1 (w.course moves tree i).2 := by
  rcases course_opened moves hphase htemp hnear hne hchild ho hv i with hb | ⟨n, time, ht⟩
  · exact hb
  · have hlast := (turned_of_le moves htemp hnear hne ho hv ht hi).after
    rw [h] at hlast
    cases hlast

variable (hs : tree.Spares root m)

include hs

/-- **A write that fails leaves the tree that it found, and on its way shows no more than its
hidden file.** -/
theorem course_error {last : Nat} {e : FileError}
    (h : (w.course moves tree last).1 = .done (.error e)) :
    (w.course moves tree last).2 = tree ∧
      ∀ i, tree.Veiled root m (w.course moves tree i).2 := by
  by_cases hopens : ∃ home, tree.Opens root home
  case neg =>
    have hshut := course_shut moves hphase htemp fun home hh =>
      hopens ⟨home, hh.alike hnear.symm⟩
    exact ⟨(hshut last).2, fun i => .inl (hshut i).2⟩
  case pos =>
    obtain ⟨home, ho⟩ := hopens
    have hbefore : ∀ i, i ≤ last →
        w.Before tree near home m (w.course moves tree i).1 (w.course moves tree i).2 :=
      fun i => before_of_course_error moves hphase htemp hnear hne hchild ho (hs home ho) h
    have hlast : (w.course moves tree last).2 = tree := by
      have hb := hbefore last (Nat.le_refl last)
      generalize w.course moves tree last = point at h hb
      obtain ⟨phase, t⟩ := point
      cases h
      cases hb
      rfl
    refine ⟨hlast, fun i => ?_⟩
    rcases Nat.le_total i last with hi | hi
    · exact (hbefore i hi).veiled ho (hs home ho)
    · rw [course_of_done h hi]
      exact .inl hlast

/-- **A write that succeeds has one turning point.** -/
theorem course_ok {last : Nat} (h : (w.course moves tree last).1 = .done (.ok ())) :
    ∃ home n time switch, tree.Opens root home ∧ switch ≤ last ∧
      (∀ i, i < switch → tree.Veiled root m (w.course moves tree i).2) ∧
      ∀ i, switch ≤ i → w.Turned tree near root home m n time (w.course moves tree i).1
        (w.course moves tree i).2 := by
  by_cases hopens : ∃ home, tree.Opens root home
  case neg =>
    obtain ⟨hvain, -⟩ := course_shut moves hphase htemp
      (fun home hh => hopens ⟨home, hh.alike hnear.symm⟩) last
    rw [h] at hvain
    cases hvain
  case pos =>
    obtain ⟨home, ho⟩ := hopens
    have hcourse := course_opened moves hphase htemp hnear hne hchild ho (hs home ho)
    have hturned : ∃ i, i ≤ last ∧ ∃ n time, w.Turned tree near root home m n time
        (w.course moves tree i).1 (w.course moves tree i).2 := by
      refine ⟨last, Nat.le_refl last, ?_⟩
      rcases hcourse last with hb | ht
      · rw [h] at hb
        cases hb
      · exact ht
    -- The switch is the first point past the turn.
    classical
    obtain ⟨hle, n, time, ht⟩ := Nat.find_spec hturned
    refine ⟨home, n, time, Nat.find hturned, ho, hle, ?_, ?_⟩
    · intro i hi
      rcases hcourse i with hb | ht'
      · exact hb.veiled ho (hs home ho)
      · exact absurd ⟨by omega, ht'⟩ (Nat.find_min hturned hi)
    · intro i hi
      exact turned_of_le moves htemp hnear hne ho (hs home ho) ht hi

end Whole

end AtomicWrite
end LineStore
