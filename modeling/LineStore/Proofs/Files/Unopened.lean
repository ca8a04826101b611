import LineStore.Proofs.Files.Hidden

/-!
# Writes that come to nothing

A root need not be there. Its path may be missing, lead through a file, loop, or be too long to be
walked; then it is `Shut`, no operation on a child of it finds anything, and the one that makes a
file makes it nowhere. With what `run_child` says of a root that opens, that is every root:
`tree_of_run_error`, **a write that fails leaves the very tree that it found**, whatever the tree.
All that is asked is that the hidden name is free (`Spares`).
-/

namespace LineStore

namespace Tree

variable {tree : Tree} {root near new : Path} {home : Location} {n : Name} {left : Nat}

/-- The path does not lead to a directory that exists. -/
def Shut (tree : Tree) (root : Path) : Prop := ∀ home, ¬ tree.Opens root home

/-- The name is free in the directory that the path leads to, if it leads to one. -/
def Spares (tree : Tree) (root : Path) (n : Name) : Prop :=
  ∀ home, tree.Opens root home → tree.get? (n :: home) = none

theorem get?_of_names (h : ∀ e ∈ tree.entries, e.name ≠ n) (dir : Location) :
    tree.get? (n :: dir) = none := by
  apply tree.get?_cons_eq_none_iff.2
  intro e he hl
  exact h e he (List.cons.inj hl).1

theorem Spares.of_names (h : ∀ e ∈ tree.entries, e.name ≠ n) : tree.Spares root n :=
  fun home _ => get?_of_names h home

theorem Shut.alike (h : tree.Shut root) (hn : near.Alike root) : tree.Shut near :=
  fun home hh => h home (hh.alike hn.symm)

theorem Shut.not_directory (h : tree.Shut root)
    (hl : tree.Leads linkLimit (tree.start root) root.segments left home) :
    tree.get? home ≠ some .directory :=
  fun hd => h home ⟨⟨left, hl⟩, hd⟩

/-- Even where the steps of a shut path can be gone, nothing is below. -/
theorem Shut.get?_child (h : tree.Shut root)
    (hl : tree.Leads linkLimit (tree.start root) root.segments left home) (n : Name) :
    tree.get? (n :: home) = none := by
  cases hg : tree.get? (n :: home) with
  | none => rfl
  | some node => exact absurd (tree.get?_dir hg) (h.not_directory hl)

theorem Shut.doorstep {dir : Location} {last : Segment} (h : tree.Shut root)
    (hd : tree.doorstep (root.child n) = .ok (dir, last)) :
    last = .name n ∧ tree.get? (n :: dir) = none := by
  obtain ⟨hlast, -, left, hl⟩ := leads_of_doorstep hd
  exact ⟨hlast, h.get?_child hl n⟩

theorem Shut.locate {ending : Ending} {place : Place} (h : tree.Shut root)
    (hp : tree.locate ending (root.child n) = .ok place) :
    ∃ home, place = .vacant home n ∧ tree.get? home ≠ some .directory := by
  unfold Tree.locate at hp
  split at hp
  · cases hp
  · rw [Path.steps_child] at hp
    obtain ⟨left, home, hl, hw⟩ :=
      exists_leads_of_walk_append ⟨.name n, by simp, by simp⟩ _ _ _ hp
    rw [walk_name, if_neg (by simp), h.get?_child hl n] at hw
    split at hw
    · cases hw
    · cases hw
      exact ⟨home, rfl, h.not_directory hl⟩

/-! ## Operations on a child of a shut path -/

theorem Shut.unlink (h : tree.Shut root) (n : Name) :
    ∃ e, tree.unlink (root.child n) = .error e := by
  unfold Tree.unlink
  split
  · exact ⟨_, rfl⟩
  · rename_i hd
    obtain ⟨rfl, hg⟩ := by simpa using h.doorstep hd
    split
    · exact ⟨_, rfl⟩
    · rw [hg]
      exact ⟨_, rfl⟩
  · exact ⟨_, rfl⟩

theorem Shut.rename (h : tree.Shut root) (n : Name) (new : Path) :
    ∃ e, tree.rename (root.child n) new = .error e := by
  unfold Tree.rename
  split
  · exact ⟨_, rfl⟩
  · split
    · exact ⟨_, rfl⟩
    · split
      · exact ⟨_, rfl⟩
      · exact ⟨_, rfl⟩
      · rename_i hd _
        obtain ⟨rfl, hg⟩ := by simpa using h.doorstep hd
        split
        · exact ⟨_, rfl⟩
        · rw [hg]
          exact ⟨_, rfl⟩
      · exact ⟨_, rfl⟩

theorem Shut.link (h : tree.Shut root) (n : Name) (new : Path) :
    ∃ e, tree.link (root.child n) new = .error e := by
  unfold Tree.link
  split
  · exact ⟨_, rfl⟩
  · split
    · exact ⟨_, rfl⟩
    · split
      · exact ⟨_, rfl⟩
      · exact ⟨_, rfl⟩
      · rename_i hp
        obtain ⟨home, hv, _⟩ := h.locate hp
        cases hv

/-- A file that is made where there is no directory is in no directory. -/
theorem Shut.create (h : tree.Shut root) (n : Name) (now : Instant) :
    (∃ e, tree.create (root.child n) now = .error e) ∨
      tree.create (root.child n) now = .ok (tree.freshId, tree) := by
  unfold Tree.create
  split
  · exact .inl ⟨_, rfl⟩
  · rename_i hp
    obtain ⟨home, hv, hd⟩ := h.locate hp
    cases hv
    refine .inr ?_
    rw [attach, dif_neg fun hc => hd hc.1]
  · rename_i hp
    obtain ⟨home, hv, _⟩ := h.locate hp
    cases hv
  · rename_i hp
    obtain ⟨home, hv, _⟩ := h.locate hp
    cases hv

end Tree

namespace AtomicWrite

variable {tree : Tree} {root near : Path} {m n : Name} {w : AtomicWrite}

theorem clear_shut (h : tree.Shut near) (hw : w.temp = near.child m) : w.clear tree = tree := by
  obtain ⟨e, he⟩ := h.unlink m
  rw [clear, hw, he]

theorem publish_shut (h : tree.Shut near) (hw : w.temp = near.child m) :
    ∃ e, w.publish tree = .error e := by
  rw [publish, hw]
  cases w.mode with
  | replace => exact h.rename m w.target
  | createNew => exact h.link m w.target

theorem run_shut (h : tree.Shut near) (hw : w.temp = near.child m) (now : Instant) :
    ∃ e, w.run now tree = (.error e, tree) := by
  rw [run, hw]
  rcases h.create m now with ⟨e, he⟩ | hc
  · rw [he]
    exact ⟨e, congrArg _ (clear_shut h hw)⟩
  · have hfull : (if w.content = [] then tree else tree.append tree.freshId w.content now) =
        tree := by
      split
      · rfl
      · exact Tree.setFile_freshId ..
    obtain ⟨e, he⟩ := publish_shut h hw
    rw [hc]
    dsimp only
    rw [hfull, finish, he]
    exact ⟨e, congrArg _ (clear_shut h hw)⟩

/-- **A write that fails leaves the tree as it was.** -/
theorem tree_of_run_error {e : FileError} {now : Instant} (ht : w.target = root.child n)
    (hnear : near.Alike root) (hw : w.temp = near.child m) (hs : tree.Spares root m) (hne : m ≠ n)
    (he : (w.run now tree).1 = .error e) : (w.run now tree).2 = tree := by
  by_cases ho : ∃ home, tree.Opens root home
  case pos =>
    obtain ⟨home, ho⟩ := ho
    rw [run_child ho ht (ho.alike hnear) hw (hs home ho) hne] at he ⊢
    cases hx : hindrance? tree near root home m n w.mode with
    | some e => rfl
    | none => rw [hx] at he; cases he
  case neg =>
    obtain ⟨e, hr⟩ := run_shut (Tree.Shut.alike (fun home hh => ho ⟨home, hh⟩) hnear) hw now
    rw [hr]

end AtomicWrite

theorem Host.tree_of_writeAtomic_error {host : Host} {root : Path} {n : Name} {content : Bytes}
    {mode : WriteMode} {e : FileError} (hs : host.tree.Spares root host.hidden)
    (hne : host.hidden ≠ n) (he : (host.writeAtomic (root.child n) content mode).1 = .error e) :
    (host.writeAtomic (root.child n) content mode).2.tree = host.tree :=
  AtomicWrite.tree_of_run_error rfl root.alike_trim (Path.sibling_child ..) hs hne he

end LineStore
