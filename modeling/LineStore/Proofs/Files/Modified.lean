import LineStore.Proofs.Files.Course

/-!
# When directories are modified

A directory has the time of the last operation that changed the names in it. Over the operations of
a write a directory keeps its time if the names in it are the same at every point
(`modified_carry`), and has the time of the write once they have changed
(`modified_carry_of_stirred`). A write that fails leaves the tree as it was and has still changed
the names of one directory, twice: of the one in which it made its hidden file. That directory has a
new time (`modified_home_of_writeAtomic`), and no other (`modified_of_writeAtomic_error`).
-/

namespace LineStore

namespace Tree

variable {tree : Tree} {home dir : Location} {m : Name}

/-- A file more changes the names of its own directory only. -/
theorem names?_attach_of_ne (hd : tree.get? home = some .directory)
    (hv : tree.get? (m :: home) = none) (file : File) (hne : dir ≠ home) :
    (tree.attach home m (.file file)).names? dir = tree.names? dir := by
  have hchildren : (tree.attach home m (.file file)).children dir = tree.children dir := by
    rw [children, children, attach_entries hd hv, List.filter_cons_of_neg]
    simpa using hne.symm
  unfold names?
  rw [hchildren, get?_attach hd hv]
  by_cases hl : dir = m :: home
  · rw [if_pos hl, hl, hv]
    rfl
  · rw [if_neg hl]

theorem names?_attach (hd : tree.get? home = some .directory) (hv : tree.get? (m :: home) = none)
    (file : File) : (tree.attach home m (.file file)).names? home ≠ tree.names? home := by
  have hkept : (tree.attach home m (.file file)).get? home = some .directory := by
    rw [get?_attach hd hv, if_neg (by simp)]
    exact hd
  unfold names?
  rw [if_pos hkept, if_pos hd, children, children, attach_entries hd hv,
    List.filter_cons_of_pos (by simp)]
  intro h
  have hlength := congrArg List.length (Option.some.inj h)
  simp at hlength

end Tree

namespace Host

variable {host : Host} {w : AtomicWrite} {chunk n : Nat} {dir home : Location} {root : Path}
  {name : Name} {content : Bytes} {mode : WriteMode} {e : FileError}

/-! ## Over the operations of a write -/

theorem modified_carry
    (h : ∀ i ≤ n, (AtomicWrite.steps chunk host.now i (w, host.tree)).2.names? dir =
      host.tree.names? dir) :
    (host.carry chunk n w).modified dir = host.modified dir := by
  induction n generalizing host w with
  | zero => rfl
  | succ n ih =>
    have hfirst := h 1 (Nat.le_add_left 1 n)
    refine (ih fun i hi => ?_).trans (if_pos hfirst.symm)
    exact (h (i + 1) (Nat.succ_le_succ hi)).trans hfirst.symm

/-- The time of a write is the last there is while it lasts. -/
theorem modified_carry_of_now (h : host.modified dir = host.now) :
    (host.carry chunk n w).modified dir = host.now := by
  induction n generalizing host w with
  | zero => exact h
  | succ n ih =>
    refine @ih (host.settle _) _ ?_
    show (if _ then host.modified dir else host.now) = host.now
    rw [h, ite_self]

theorem modified_carry_of_stirred
    (h : (w.step chunk host.now host.tree).2.names? dir ≠ host.tree.names? dir) :
    (host.carry chunk (n + 1) w).modified dir = host.now :=
  @modified_carry_of_now (host.settle _) _ _ _ _ (if_neg h.symm)

/-! ## A write that fails -/

/-- The directory in which a write makes its hidden file, if it can make one. -/
structure Hides (host : Host) (root : Path) (home : Location) : Prop where
  opens : host.tree.Opens root home
  named : root.trim.refusal? host.hidden = none

/-- **A write that fails gives a new time to the directory of its hidden file only.** -/
theorem modified_of_writeAtomic_error (hs : host.tree.Spares root host.hidden)
    (hne : host.hidden ≠ name) (he : (host.writeAtomic (root.child name) content mode).1 = .error e)
    (hdir : ¬ host.Hides root dir) :
    (host.writeAtomic (root.child name) content mode).2.modified dir = host.modified dir := by
  have hlast : ((host.prepare (root.child name) content mode).course
      (fun _ => (content.length, host.now)) host.tree 4).1 = .done (.error e) := by
    rw [show content.length = (host.prepare (root.child name) content mode).content.length from
      rfl, AtomicWrite.course_run rfl]
    exact congrArg WritePhase.done he
  show (host.carry content.length 4 (host.prepare (root.child name) content mode)).modified dir = _
  refine modified_carry fun i hi => ?_
  rw [AtomicWrite.steps_eq_course]
  by_cases ho : ∃ home, host.tree.Opens root home
  case neg =>
    have hshut : host.tree.Shut root.trim :=
      Tree.Shut.alike (fun home hh => ho ⟨home, hh⟩) root.alike_trim
    rw [(AtomicWrite.course_shut _ rfl (Path.sibling_child ..) hshut i).2]
  case pos =>
    obtain ⟨home, ho⟩ := ho
    have hv := hs home ho
    have hother : ∀ other, root.child name = root.child other → host.hidden ≠ other := by
      intro other hc
      have hsegments := congrArg Path.segments hc
      simp only [Path.child, List.append_cancel_left_eq, List.cons.injEq, Segment.name.injEq,
        and_true] at hsegments
      exact hsegments ▸ hne
    have hbefore := AtomicWrite.before_of_course_error _ rfl (Path.sibling_child ..)
      root.alike_trim hother (fun _ _ _ => ⟨name, rfl⟩) ho hv hlast hi
    -- The names are those of before, or those and the hidden one.
    have hbeside : ∀ file, root.trim.refusal? host.hidden = none →
        (host.tree.attach home host.hidden (.file file)).names? dir = host.tree.names? dir := by
      intro file hm
      refine Tree.names?_attach_of_ne ho.directory hv file ?_
      rintro rfl
      exact hdir ⟨ho, hm⟩
    generalize AtomicWrite.course _ _ _ i = point at hbefore ⊢
    obtain ⟨phase, t⟩ := point
    cases hbefore with
    | opening | refused _ _ | failed _ => rfl
    | writing hm _ _ _ | publishing hm _ | failing hm _ _ => exact hbeside _ hm

/-- **And to that one it does**, as every write does. -/
theorem modified_home_of_writeAtomic (hs : host.tree.Spares root host.hidden)
    (h : host.Hides root home) :
    (host.writeAtomic (root.child name) content mode).2.modified home = host.now := by
  have hv := hs home h.opens
  have htemp : (host.prepare (root.child name) content mode).temp = root.trim.child host.hidden :=
    Path.sibling_child ..
  have hcreate : host.tree.create (host.prepare (root.child name) content mode).temp host.now =
      .ok (host.tree.freshId,
        host.tree.attach home host.hidden (.file ⟨host.tree.freshId, [], host.now⟩)) := by
    rw [htemp, (h.opens.alike root.alike_trim).create_child hv, h.named]
  have hadvance : (host.prepare (root.child name) content mode).advance content.length host.now
      host.tree = (AtomicWrite.afterBytes host.tree.freshId content,
        host.tree.attach home host.hidden (.file ⟨host.tree.freshId, [], host.now⟩)) := by
    simp only [AtomicWrite.advance, show (host.prepare (root.child name) content mode).phase =
      .opening from rfl, hcreate]
    rfl
  show (host.carry content.length 4 (host.prepare (root.child name) content mode)).modified home = _
  apply modified_carry_of_stirred
  rw [AtomicWrite.step, hadvance]
  exact Tree.names?_attach h.opens.directory hv _

end Host
end LineStore
