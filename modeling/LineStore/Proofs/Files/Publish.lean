import LineStore.Files.AtomicWrite
import LineStore.Proofs.Files.Opened

/-!
# What a write does, all in all

A write goes through a hidden file, which is made, filled, moved or linked into place, and removed.
`run_child` is the sum of that, for a target in an opened directory in which the hidden name is
free: one answer and one new tree, `place`, or an error **and the very tree that was there before**.
The hidden file is a new one, so filling it writes no other file, and each way out takes its name
away.

`place` is then all that a store has to know of a write; `get?_place` says what it changes.
-/

namespace LineStore

namespace Tree

variable {tree : Tree} {home loc : Location} {m n : Name} {node : Node}

/-! ## Names that come and go -/

theorem detach_vacant (h : tree.get? loc = none) : tree.detach loc = tree := by
  refine ext ?_ ?_
  · rw [detach, dif_pos (by simp [h])]
    refine List.filter_eq_self.2 fun e he => ?_
    have : e.location ≠ loc := by
      rintro rfl
      rw [tree.get?_location he] at h
      cases h
    simpa using this
  · rw [detach, dif_pos (by simp [h])]

theorem attach_cwd : (tree.attach home n node).cwd = tree.cwd := by
  unfold attach
  split <;> rfl

theorem detach_cwd : (tree.detach loc).cwd = tree.cwd := by
  unfold detach
  split <;> rfl

/-- A name that is taken away again was never there. -/
theorem detach_attach (hd : tree.get? home = some .directory) (hn : tree.get? (n :: home) = none)
    (hf : node ≠ .directory) : (tree.attach home n node).detach (n :: home) = tree := by
  have hg : (tree.attach home n node).get? (n :: home) ≠ some .directory := by
    rw [get?_attach hd hn, if_pos rfl]
    simpa using hf
  refine ext ?_ ?_
  · have hv := congrArg entries (detach_vacant hn)
    rw [detach, dif_pos (by simp [hn])] at hv
    rw [detach, dif_pos hg]
    dsimp only at hv ⊢
    rw [attach_entries hd hn, List.filter_cons, if_neg (by simp [Entry.location])]
    exact hv
  · rw [detach_cwd, attach_cwd]

theorem detach_attach_comm (hd : tree.get? home = some .directory)
    (hn : tree.get? (n :: home) = none) (hm : tree.get? (m :: home) ≠ some .directory)
    (hne : m ≠ n) :
    (tree.attach home n node).detach (m :: home) = (tree.detach (m :: home)).attach home n node := by
  have hg := get?_detach hm
  have hm' : (tree.attach home n node).get? (m :: home) ≠ some .directory := by
    rw [get?_attach hd hn, if_neg (by simp [hne])]
    exact hm
  have hd' : (tree.detach (m :: home)).get? home = some .directory := by
    rw [hg, if_neg (by simp)]
    exact hd
  have hn' : (tree.detach (m :: home)).get? (n :: home) = none := by
    rw [hg, if_neg (by simp [hne.symm])]
    exact hn
  refine ext ?_ ?_
  · rw [detach, dif_pos hm', attach_entries hd' hn', detach, dif_pos hm]
    dsimp only
    rw [attach_entries hd hn, List.filter_cons, if_pos (by simp [Entry.location, hne.symm])]
  · rw [detach_cwd, attach_cwd, attach_cwd, detach_cwd]

theorem detach_attach_attach {other : Node} (hd : tree.get? home = some .directory)
    (hm : tree.get? (m :: home) = none) (hn : tree.get? (n :: home) = none) (hne : m ≠ n)
    (hf : node ≠ .directory) :
    ((tree.attach home m node).attach home n other).detach (m :: home) =
      tree.attach home n other := by
  have hg : ∀ loc, (tree.attach home m node).get? loc =
      if loc = m :: home then some node else tree.get? loc := get?_attach hd hm
  rw [detach_attach_comm _ _ _ hne, detach_attach hd hm hf]
  · rw [hg, if_neg (by simp)]
    exact hd
  · rw [hg, if_neg (by simp [hne.symm])]
    exact hn
  · rw [hg, if_pos rfl]
    simpa using hf

/-- Writing to a file that was just made writes no other file. -/
theorem append_attach (written bytes : Bytes) (time now : Instant)
    (hd : tree.get? home = some .directory) (hn : tree.get? (n :: home) = none) :
    (tree.attach home n (.file ⟨tree.freshId, written, time⟩)).append tree.freshId bytes now =
      tree.attach home n (.file ⟨tree.freshId, written ++ bytes, now⟩) := by
  have hb : (tree.attach home n (.file ⟨tree.freshId, written, time⟩)).bytesOf tree.freshId =
      written := by
    rw [bytesOf, attach_entries hd hn, List.findSome?_cons]
    simp
  refine ext ?_ ?_
  · have hv := congrArg entries (setFile_freshId tree (written ++ bytes) now)
    rw [append, hb, setFile]
    rw [setFile] at hv
    dsimp only at hv ⊢
    rw [attach_entries hd hn, attach_entries hd hn, List.map_cons, hv]
    simp [overwriteNode]
  · rw [attach_cwd]
    exact attach_cwd

/-! ## Placing an entry -/

/-- The tree with `node` at a name, in place of what stands there. -/
def place (tree : Tree) (home : Location) (n : Name) (node : Node) : Tree :=
  (tree.detach (n :: home)).attach home n node

theorem place_vacant (h : tree.get? (n :: home) = none) :
    tree.place home n node = tree.attach home n node := by
  rw [place, detach_vacant h]

@[simp] theorem place_cwd : (tree.place home n node).cwd = tree.cwd := by
  rw [place, attach_cwd, detach_cwd]

/-- **Placing changes one entry.** -/
theorem get?_place (node : Node) (hd : tree.get? home = some .directory)
    (hn : tree.get? (n :: home) ≠ some .directory) (loc : Location) :
    (tree.place home n node).get? loc = if loc = n :: home then some node else tree.get? loc := by
  rw [place, get?_attach]
  · by_cases hl : loc = n :: home
    · rw [if_pos hl, if_pos hl]
    · rw [if_neg hl, if_neg hl, get?_detach hn, if_neg hl]
  · rw [get?_detach hn, if_neg (by simp)]
    exact hd
  · rw [get?_detach hn, if_pos rfl]

/-! ## One file more -/

theorem Opens.attach {root : Path} {file : File} (h : tree.Opens root home)
    (hv : tree.get? (n :: home) = none) : (tree.attach home n (.file file)).Opens root home := by
  refine h.mono (fun loc node _ hl => ?_) attach_cwd
  rw [get?_attach h.directory hv, if_neg]
  · exact hl
  · rintro rfl
    rw [hv] at hl
    cases hl

/-- One file more than `base` has, under the name `m` and no other. -/
structure Tops (base : Tree) (home : Location) (m : Name) (file : File) (tree : Tree) : Prop where
  entry : tree.get? (m :: home) = some (.file file)
  only : ∀ loc f, tree.get? loc = some (.file f) → f.id = file.id → loc = m :: home
  rest : tree.detach (m :: home) = base

theorem Tops.get?_eq {base : Tree} {file : File} (h : base.Tops home m file tree)
    (loc : Location) : base.get? loc = if loc = m :: home then none else tree.get? loc := by
  rw [← h.rest]
  exact get?_detach (by rw [h.entry]; simp) loc

theorem Tops.get?_of_ne {base : Tree} {file : File} (h : base.Tops home m file tree)
    (hl : loc ≠ m :: home) : tree.get? loc = base.get? loc := by
  rw [h.get?_eq, if_neg hl]

end Tree

namespace AtomicWrite

variable {tree : Tree} {root near : Path} {home : Location} {m n : Name} {w : AtomicWrite}

def published (w : AtomicWrite) (now : Instant) (tree : Tree) : Node :=
  .file ⟨tree.freshId, w.content, now⟩

/-- What stands in the way of publishing over what is at the target. -/
def obstacle? : WriteMode → Option Node → Option FileError
  | .replace, some .directory => some .isDirectory
  | .replace, _ => none
  | .createNew, some _ => some .occupied
  | .createNew, none => none

theorem vacant_of_obstacle? {entry : Option Node} (h : obstacle? .createNew entry = none) :
    entry = none := by
  cases entry with
  | none => rfl
  | some node => cases h

/-- What keeps a write to the child `n` of `root`, by way of the child `m` of `near`, from being
done. -/
def hindrance? (tree : Tree) (near root : Path) (home : Location) (m n : Name) (mode : WriteMode) :
    Option FileError :=
  ((near.refusal? m).or (root.refusal? n)).or (obstacle? mode (tree.get? (n :: home)))

theorem get?_hidden (hd : tree.get? home = some .directory) (hv : tree.get? (m :: home) = none)
    (now : Instant) (loc : Location) :
    (tree.attach home m (w.published now tree)).get? loc =
      if loc = m :: home then some (w.published now tree) else tree.get? loc :=
  Tree.get?_attach hd hv loc

theorem opens_hidden (h : tree.Opens root home) (hv : tree.get? (m :: home) = none)
    (now : Instant) : (tree.attach home m (w.published now tree)).Opens root home :=
  h.attach hv

/-- No file of the tree is the one that a write makes. -/
theorem freshId_ne {other : File} {loc : Location} (h : tree.get? loc = some (.file other)) :
    tree.freshId ≠ other.id := by
  cases loc with
  | nil => cases h
  | cons n dir =>
    exact Nat.ne_of_gt (Tree.fileId?_lt_freshId (tree.get?_cons_eq_some_iff.1 h) rfl)

theorem tops_hidden (h : tree.Opens root home) (hv : tree.get? (m :: home) = none)
    (now : Instant) : tree.Tops home m ⟨tree.freshId, w.content, now⟩
      (tree.attach home m (w.published now tree)) where
  entry := by rw [get?_hidden h.directory hv, if_pos rfl]; rfl
  only loc f hf hid := by
    rw [get?_hidden h.directory hv] at hf
    split at hf
    · assumption
    · exact absurd hid.symm (freshId_ne hf)
  rest := Tree.detach_attach h.directory hv (by simp [published])

/-! ## Publishing what is on top -/

section Tops

variable {base : Tree} {file : File} (hnear : tree.Opens near home) (hw : w.temp = near.child m)
  (hm : near.refusal? m = none) (h : base.Tops home m file tree)

include hnear hw hm h

theorem clear_tops : w.clear tree = base := by
  rw [clear, hw, hnear.unlink_child, hm, h.entry]
  exact h.rest

variable (hne : m ≠ n)

include hne

theorem clear_tops_linked (hv : base.get? (n :: home) = none) :
    w.clear (tree.attach home n (.file file)) = base.place home n (.file file) := by
  have hv' : tree.get? (n :: home) = none := by
    rw [h.get?_of_ne (by simp [hne.symm])]
    exact hv
  rw [clear, hw, (hnear.attach hv').unlink_child, hm, Tree.get?_attach hnear.directory hv',
    if_neg (by simp [hne]), h.entry]
  dsimp only
  rw [Tree.detach_attach_comm hnear.directory hv' (by rw [h.entry]; simp) hne, h.rest,
    Tree.place_vacant hv]

variable (ho : tree.Opens root home) (ht : w.target = root.child n)

include ho ht

theorem publish_tops :
    w.publish tree =
      match (root.refusal? n).or (obstacle? w.mode (base.get? (n :: home))) with
      | some e => .error e
      | none =>
        match w.mode with
        | .replace => .ok (base.place home n (.file file))
        | .createNew => .ok (tree.attach home n (.file file)) := by
  have hn : tree.get? (n :: home) = base.get? (n :: home) := h.get?_of_ne (by simp [hne.symm])
  rw [publish, hw, ht]
  cases w.mode with
  | replace =>
    dsimp only
    rw [ho.rename_child hnear hm h.entry hne fun other hother hid =>
      hne (List.cons.inj (h.only _ other hother hid.symm)).1.symm, h.rest, hn]
    cases root.refusal? n with
    | some e => rfl
    | none =>
      cases hg : base.get? (n :: home) with
      | none => rw [Tree.place_vacant hg]; rfl
      | some node => cases node <;> rfl
  | createNew =>
    dsimp only
    rw [ho.link_child hnear hm h.entry, hn]
    cases root.refusal? n with
    | some e => rfl
    | none => cases base.get? (n :: home) <;> rfl

theorem finish_tops :
    w.finish tree =
      match (root.refusal? n).or (obstacle? w.mode (base.get? (n :: home))) with
      | some e => (.error e, base)
      | none => (.ok (), base.place home n (.file file)) := by
  rw [finish, publish_tops hnear hw hm h hne ho ht]
  cases hx : (root.refusal? n).or (obstacle? w.mode (base.get? (n :: home))) with
  | some e => exact congrArg _ (clear_tops hnear hw hm h)
  | none =>
    cases hmode : w.mode with
    | replace => rfl
    | createNew =>
      rw [hmode] at hx
      have hv := vacant_of_obstacle? (Option.or_eq_none_iff.1 hx).2
      exact congrArg _ (clear_tops_linked hnear hw hm h hne hv)

end Tops

/-! ## A write from its beginning -/

theorem clear_hidden (h : tree.Opens near home) (hw : w.temp = near.child m)
    (hm : near.refusal? m = none) (hv : tree.get? (m :: home) = none) (now : Instant) :
    w.clear (tree.attach home m (w.published now tree)) = tree :=
  clear_tops (opens_hidden h hv now) hw hm (tops_hidden h hv now)

theorem clear_refused {e : FileError} (h : tree.Opens near home) (hw : w.temp = near.child m)
    (hm : near.refusal? m = some e) : w.clear tree = tree := by
  rw [clear, hw, h.unlink_child, hm]

theorem publish_replace (h : tree.Opens root home) (ht : w.target = root.child n)
    (hnear : tree.Opens near home) (hw : w.temp = near.child m) (hmode : w.mode = .replace)
    (hm : near.refusal? m = none) (hv : tree.get? (m :: home) = none) (hne : m ≠ n)
    (now : Instant) :
    w.publish (tree.attach home m (w.published now tree)) =
      match (root.refusal? n).or (obstacle? .replace (tree.get? (n :: home))) with
      | some e => .error e
      | none => .ok (tree.place home n (w.published now tree)) := by
  rw [publish_tops (opens_hidden hnear hv now) hw hm (tops_hidden h hv now) hne
    (opens_hidden h hv now) ht, hmode]
  rfl

theorem publish_createNew (h : tree.Opens root home) (ht : w.target = root.child n)
    (hnear : tree.Opens near home) (hw : w.temp = near.child m) (hmode : w.mode = .createNew)
    (hm : near.refusal? m = none) (hv : tree.get? (m :: home) = none) (hne : m ≠ n)
    (now : Instant) :
    w.publish (tree.attach home m (w.published now tree)) =
      match (root.refusal? n).or (obstacle? .createNew (tree.get? (n :: home))) with
      | some e => .error e
      | none => .ok ((tree.attach home m (w.published now tree)).attach home n
          (w.published now tree)) := by
  rw [publish_tops (opens_hidden hnear hv now) hw hm (tops_hidden h hv now) hne
    (opens_hidden h hv now) ht, hmode]
  rfl

/-- The tree in which the complete file has both of its names. -/
theorem get?_linked (h : tree.Opens root home) (hv : tree.get? (m :: home) = none)
    (ho : tree.get? (n :: home) = none) (hne : m ≠ n) (now : Instant) (loc : Location) :
    ((tree.attach home m (w.published now tree)).attach home n (w.published now tree)).get? loc =
      if loc = n :: home then some (w.published now tree)
      else (tree.attach home m (w.published now tree)).get? loc := by
  refine Tree.get?_attach (opens_hidden h hv now).directory ?_ loc
  rw [get?_hidden h.directory hv, if_neg (by simp [Ne.symm hne])]
  exact ho

theorem clear_linked (h : tree.Opens near home) (hw : w.temp = near.child m)
    (hm : near.refusal? m = none) (hv : tree.get? (m :: home) = none)
    (ho : tree.get? (n :: home) = none) (hne : m ≠ n) (now : Instant) :
    w.clear ((tree.attach home m (w.published now tree)).attach home n (w.published now tree)) =
      tree.place home n (w.published now tree) :=
  clear_tops_linked (opens_hidden h hv now) hw hm (tops_hidden h hv now) hne ho

/-- **A write is one new entry, or an error and nothing at all.** -/
theorem run_child (h : tree.Opens root home) (ht : w.target = root.child n)
    (hnear : tree.Opens near home) (hw : w.temp = near.child m) (hv : tree.get? (m :: home) = none)
    (hne : m ≠ n) (now : Instant) :
    w.run now tree =
      match hindrance? tree near root home m n w.mode with
      | some e => (.error e, tree)
      | none => (.ok (), tree.place home n (w.published now tree)) := by
  rw [run, hw, hnear.create_child hv, hindrance?]
  cases hm : near.refusal? m with
  | some e => exact congrArg _ (clear_refused hnear hw hm)
  | none =>
    have hfull : (if w.content = [] then tree.attach home m (.file ⟨tree.freshId, [], now⟩)
        else (tree.attach home m (.file ⟨tree.freshId, [], now⟩)).append tree.freshId w.content
          now) = tree.attach home m (w.published now tree) := by
      by_cases hc : w.content = []
      · rw [if_pos hc, published, hc]
      · rw [if_neg hc, Tree.append_attach [] w.content now now h.directory hv, List.nil_append]
        rfl
    dsimp only
    rw [hfull, Option.none_or, finish_tops (opens_hidden hnear hv now) hw hm
      (tops_hidden h hv now) hne (opens_hidden h hv now) ht]
    rfl

end AtomicWrite
end LineStore
