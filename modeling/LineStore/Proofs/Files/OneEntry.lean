import LineStore.Proofs.Files.Unopened

/-!
# One entry changes

Replacing acts on a name and not on what the name leads to, so a write that succeeds changes **one
directory entry**, and so does a removal. `ChangedAt` says which one, in terms of text as well as of
the tree: the name is a single step below the root, it is not a hidden name, and every other entry,
under this root or anywhere else, is what it was. A link that stood there is gone, and what it led
to is one of the other entries.
-/

namespace LineStore

namespace Path

variable {root : Path} {n : Name}

/-- A name without a separator is one step of a path, unless it is a dot, or two. -/
theorem ofBytes_name (hs : Segment.separator ∉ n) (hne : n ≠ []) (hd : n.head? ≠ some 0x2E) :
    ofBytes n = ⟨false, [.name n], false⟩ := by
  have hfront : (n.head? == some Segment.separator) = false := by
    rw [beq_eq_false_iff_ne]
    intro h
    exact hs (List.mem_of_mem_head? h)
  have hback : (n.getLast? == some Segment.separator) = false := by
    rw [beq_eq_false_iff_ne]
    intro h
    exact hs (List.mem_of_getLast? h)
  have hsplit : n.splitOnP (· == Segment.separator) = [n] := by
    apply List.splitOnP_eq_singleton
    intro b hb
    rw [beq_eq_false_iff_ne]
    rintro rfl
    exact hs hb
  have hstep : Segment.ofBytes n = .name n := by
    unfold Segment.ofBytes
    rw [if_neg hne, if_neg, if_neg]
    · rintro rfl
      exact hd rfl
    · rintro rfl
      exact hd rfl
  simp [ofBytes, hfront, hback, hsplit, hstep, hne]

theorem join_name (root : Path) (n : Name) : root.join ⟨false, [.name n], false⟩ = root.child n := by
  simp [join, child]

end Path

namespace Tree

variable {tree after : Tree} {root : Path} {home : Location} {n : Name} {new? : Option Node}

/-- The second tree is the first with one entry changed: the one called `n`, directly in the
directory at `home` that the root's path leads to. It is `new?` now. -/
structure ChangedAt (tree : Tree) (root : Path) (home : Location) (n : Name)
    (new? : Option Node) (after : Tree) : Prop where
  opens : tree.Opens root home
  /-- As text, the name is the root's path and one step more. -/
  step : root.join (.ofBytes n) = root.child n
  visible : n.head? ≠ some 0x2E
  entry : after.get? (n :: home) = new?
  elsewhere : ∀ loc, loc ≠ n :: home → after.get? loc = tree.get? loc
  /-- What a link at the entry led to is there as it was. -/
  pointed : ∀ target loc node, tree.get? (n :: home) = some (.link target) →
    tree.follow (root.child n) = .ok (loc, node) → after.get? loc = some node

/-- A path that is followed to the end does not end at a link, so not at an entry that is one. -/
theorem Opens.get?_of_follow {loc : Location} {node : Node} (h : tree.Opens root home)
    (hf : tree.follow (root.child n) = .ok (loc, node)) :
    tree.get? loc = some node ∧ ∀ target, node ≠ .link target := by
  obtain ⟨hfault, -⟩ := walk_of_follow hf
  obtain ⟨left, hw⟩ := h.locate hfault .followed
  unfold Tree.follow at hf
  rw [hw] at hf
  cases hp : tree.walk .followed left home [.name n] with
  | error e => rw [hp] at hf; cases hf
  | ok place =>
    rw [hp] at hf
    cases place with
    | vacant dir m => cases hf
    | found loc node =>
      cases hf
      exact get?_of_walk _ _ _ h.directory hp

/-- To have changed one entry is enough. -/
theorem ChangedAt.of_elsewhere (ho : tree.Opens root home) (hs : Segment.separator ∉ n)
    (hne : n ≠ []) (hd : n.head? ≠ some 0x2E) (he : after.get? (n :: home) = new?)
    (hv : ∀ loc, loc ≠ n :: home → after.get? loc = tree.get? loc) :
    tree.ChangedAt root home n new? after := by
  constructor
  case opens => exact ho
  case step => rw [Path.ofBytes_name hs hne hd, Path.join_name]
  case visible => exact hd
  case entry => exact he
  case elsewhere => exact hv
  case pointed =>
    intro target loc node hl hf
    obtain ⟨hg, hno⟩ := ho.get?_of_follow hf
    have hloc : loc ≠ n :: home := by
      rintro rfl
      rw [hl] at hg
      cases hg
      exact hno target rfl
    rw [hv loc hloc, hg]

end Tree

/-! ## The operations -/

variable {tree : Tree} {root near : Path} {home : Location} {m n : Name}

/-- A write that succeeds had a directory to write in, and nothing in its way. -/
theorem AtomicWrite.place_of_run_ok {w : AtomicWrite} {now : Instant}
    (ht : w.target = root.child n) (hnear : near.Alike root) (hw : w.temp = near.child m)
    (hs : tree.Spares root m) (hne : m ≠ n) (h : (w.run now tree).1 = .ok ()) :
    ∃ home, tree.Opens root home ∧ hindrance? tree near root home m n w.mode = none ∧
      (w.run now tree).2 = tree.place home n (w.published now tree) := by
  by_cases ho : ∃ home, tree.Opens root home
  case neg =>
    obtain ⟨e, hr⟩ := run_shut (Tree.Shut.alike (fun home hh => ho ⟨home, hh⟩) hnear) hw now
    rw [hr] at h
    cases h
  case pos =>
    obtain ⟨home, ho⟩ := ho
    have hr := run_child ho ht (ho.alike hnear) hw (hs home ho) hne now
    cases hx : hindrance? tree near root home m n w.mode with
    | some e =>
      rw [hx] at hr
      rw [hr] at h
      cases h
    | none =>
      rw [hx] at hr
      exact ⟨home, ho, hx, by rw [hr]⟩

theorem AtomicWrite.ne_directory_of_hindrance? {mode : WriteMode}
    (h : hindrance? tree near root home m n mode = none) :
    tree.get? (n :: home) ≠ some .directory := by
  intro hd
  have ho := (Option.or_eq_none_iff.1 h).2
  rw [hd] at ho
  cases mode <;> cases ho

/-- **A removal that succeeds was of an entry in a directory that the path leads to.** -/
theorem Tree.detach_of_unlink_ok {after : Tree} (h : tree.unlink (root.child n) = .ok after) :
    ∃ home node, tree.Opens root home ∧ tree.get? (n :: home) = some node ∧ node ≠ .directory ∧
      after = tree.detach (n :: home) := by
  by_cases ho : ∃ home, tree.Opens root home
  case neg =>
    obtain ⟨e, he⟩ := Shut.unlink (fun home hh => ho ⟨home, hh⟩) n
    rw [he] at h
    cases h
  case pos =>
    obtain ⟨home, ho⟩ := ho
    obtain ⟨node, hg, hf, ha⟩ := ho.unlink_ok h
    exact ⟨home, node, ho, hg, hf, ha⟩

end LineStore
