import LineStore.Proofs.Files.OneEntry

/-!
# Entries beside the hidden file

What the operations of a write leave alone, in whatever tree they are done. Making the hidden file,
filling it, giving it a second name and removing it concern entries called like the hidden file and
one name that was free; so **every other entry is kept** (`create_keeps`, `setFile_keeps`,
`link_keeps`, `clear_keeps`). A second name is given only where nothing stands
(`vacant_of_link_ok`), and refused as taken where something does (`link_occupied`).
-/

namespace LineStore

namespace Tree

variable {tree after : Tree} {root near old : Path} {home loc : Location} {m n : Name} {node : Node}
  {left : Nat} {now : Instant}

theorem attach_keeps {dir : Location} {new : Node} (h : tree.get? loc = some node) :
    (tree.attach dir n new).get? loc = some node := by
  by_cases hfree : tree.get? dir = some .directory ∧ tree.get? (n :: dir) = none
  · rw [get?_attach hfree.1 hfree.2, if_neg]
    · exact h
    · rintro rfl
      rw [hfree.2] at h
      cases h
  · rw [attach, dif_neg hfree]
    exact h

/-! ## The hidden file -/

/-- Whatever stands at the location is a file with no other name. -/
def Lone (tree : Tree) (loc : Location) : Prop :=
  ∀ node, tree.get? loc = some node → ∃ file, node = .file file ∧
    ∀ other f, tree.get? other = some (.file f) → f.id = file.id → other = loc

theorem Lone.of_vacant (h : tree.get? loc = none) : tree.Lone loc := by
  intro node hg
  rw [h] at hg
  cases hg

theorem Lone.isFile (h : tree.Lone loc) (hg : tree.get? loc = some node) :
    ∃ file, node = .file file := by
  obtain ⟨file, hf, -⟩ := h node hg
  exact ⟨file, hf⟩

/-- Writing a file changes the entries that are names of it. -/
theorem setFile_keeps {id : Nat} {bytes : Bytes}
    (hid : ∀ file, tree.get? loc = some (.file file) → file.id ≠ id)
    (h : tree.get? loc = some node) : (tree.setFile id bytes now).get? loc = some node := by
  rw [get?_setFile, h, Option.map_some]
  cases node with
  | directory | link _ => rfl
  | file file => rw [overwriteNode, if_neg (hid file h)]

/-- A file that is opened where at most one stands is new, or the one that is there, emptied. -/
theorem Opens.create_lone {id : Nat} (ho : tree.Opens root home) (hl : tree.Lone (m :: home))
    (hc : tree.create (root.child m) now = .ok (id, after)) : root.refusal? m = none ∧
      (tree.get? (m :: home) = none ∧ id = tree.freshId ∧
          after = tree.attach home m (.file ⟨tree.freshId, [], now⟩) ∨
        ∃ file, tree.get? (m :: home) = some (.file file) ∧ id = file.id ∧
          after = tree.setFile file.id [] now) := by
  cases hr : root.refusal? m with
  | some e =>
    rw [create, ho.locate_refused hr] at hc
    cases hc
  | none =>
    refine ⟨rfl, ?_⟩
    cases hg : tree.get? (m :: home) with
    | none =>
      rw [create, ho.locate_vacant hr hg] at hc
      cases hc
      exact .inl ⟨rfl, rfl, rfl⟩
    | some node =>
      obtain ⟨file, rfl, -⟩ := hl node hg
      rw [create, ho.locate_found hr hg (by simp)] at hc
      cases hc
      exact .inr ⟨file, rfl, rfl, rfl⟩

theorem create_keeps {id : Nat} (hs : ∀ home, tree.Opens root home → tree.Lone (m :: home))
    (hc : tree.create (root.child m) now = .ok (id, after)) (h : tree.get? loc = some node)
    (hm : ∀ dir, loc ≠ m :: dir) : after.get? loc = some node := by
  by_cases ho : ∃ home, tree.Opens root home
  case neg =>
    rcases Shut.create (fun home hh => ho ⟨home, hh⟩) m now with ⟨e, he⟩ | hsame
    · rw [he] at hc
      cases hc
    · rw [hsame] at hc
      cases hc
      exact h
  case pos =>
    obtain ⟨home, ho⟩ := ho
    obtain ⟨-, ⟨-, -, rfl⟩ | ⟨file, hg, -, rfl⟩⟩ := ho.create_lone (hs home ho) hc
    · exact attach_keeps h
    · apply setFile_keeps _ h
      intro other hother hid
      obtain ⟨_, he, honly⟩ := hs home ho _ hg
      cases he
      exact hm home (honly loc other hother hid)

theorem unlink_keeps (hu : tree.unlink (root.child m) = .ok after)
    (h : tree.get? loc = some node) (hm : ∀ dir, loc ≠ m :: dir) : after.get? loc = some node := by
  obtain ⟨home, other, -, hg, hf, rfl⟩ := detach_of_unlink_ok hu
  rw [get?_detach (by rw [hg]; simpa using hf), if_neg (hm home)]
  exact h

/-! ## The second name -/

/-- A name that is free is one that a walk finds vacant. -/
theorem locate_of_freeName_ok {dir : Location} {name : Name}
    (h : tree.freeName (root.child n) = .ok (dir, name)) :
    name = n ∧ tree.locate .itself (root.child n) = .ok (.vacant dir n) := by
  unfold freeName at h
  split at h
  · rename_i hd
    obtain ⟨hname, hfault, left, hl⟩ := leads_of_doorstep hd
    cases hname
    split at h
    · cases h
    split at h
    · cases h
    rename_i hlength hnone
    cases h
    refine ⟨rfl, ?_⟩
    rw [locate, hfault]
    dsimp only
    rw [Path.steps_child, show tree.start (root.child n) = tree.start root from rfl,
      hl.walk_append (.inr ⟨.name n, by simp, by simp⟩), walk_name, if_neg (by simp),
      if_neg hlength, Option.not_isSome_iff_eq_none.1 hnone]
    rfl
  · cases h
  · cases h

/-- **A second name is given only where nothing stands.** -/
theorem vacant_of_link_ok (h : tree.link old (root.child n) = .ok after) :
    ∃ dir loc node, tree.locate .itself (root.child n) = .ok (.vacant dir n) ∧
      tree.locate .itself old = .ok (.found loc node) ∧ after = tree.attach dir n node := by
  unfold link at h
  split at h
  · cases h
  split at h
  · cases h
  split at h
  · cases h
  · cases h
  rename_i loc node hold
  split at h
  · cases h
  rename_i dir name hf
  obtain ⟨rfl, hv⟩ := locate_of_freeName_ok hf
  split at h
  · cases h
  split at h
  · cases h
  cases h
  exact ⟨dir, loc, node, hv, hold, rfl⟩

theorem link_keeps (hl : tree.link old (root.child n) = .ok after)
    (h : tree.get? loc = some node) : after.get? loc = some node := by
  obtain ⟨dir, at', other, -, -, rfl⟩ := vacant_of_link_ok hl
  exact attach_keeps h

/-- A child that is found is an entry of a directory that the path leads to. -/
theorem opens_of_locate (h : tree.locate .itself (root.child n) = .ok (.found loc node)) :
    ∃ home, tree.Opens root home ∧ loc = n :: home ∧ tree.get? (n :: home) = some node ∧
      root.refusal? n = none := by
  unfold locate at h
  split at h
  · cases h
  rename_i hfault
  rw [Path.steps_child] at h
  obtain ⟨left, home, hl, hw⟩ :=
    exists_leads_of_walk_append ⟨.name n, by simp, by simp⟩ _ _ _ h
  rw [walk_name, if_neg (by simp)] at hw
  split at hw
  · cases hw
  rename_i hlength
  have hr : root.refusal? n = none := Path.refusal?_eq_none_iff.2 ⟨hfault, by omega⟩
  have opens : ∀ other, tree.get? (n :: home) = some other → tree.Opens root home :=
    fun other hg => ⟨⟨left, hl⟩, tree.get?_dir hg⟩
  split at hw
  · cases hw
  · rename_i hg
    rw [walk_nil] at hw
    cases hw
    exact ⟨home, opens _ hg, rfl, hg, hr⟩
  · rename_i hg
    cases hw
    exact ⟨home, opens _ hg, rfl, hg, hr⟩
  · rename_i hg
    rw [if_pos ⟨rfl, rfl⟩] at hw
    cases hw
    exact ⟨home, opens _ hg, rfl, hg, hr⟩

/-- **Where something stands, the name is refused as taken.** -/
theorem link_occupied {file : File} {other : Location}
    (hold : tree.locate .itself (near.child m) = .ok (.found other (.file file)))
    (hnew : tree.locate .itself (root.child n) = .ok (.found loc node)) :
    tree.link (near.child m) (root.child n) = .error .occupied := by
  obtain ⟨home, ho, -, hg, hr⟩ := opens_of_locate hnew
  obtain ⟨-, -, -, -, hm⟩ := opens_of_locate hold
  rw [link, refused_pair (Path.refusal?_eq_none_iff.1 hm).1, hold]
  dsimp only
  rw [(Path.refusal?_eq_none_iff.1 hr).1, ho.freeName_child, hr, hg]
  rfl

end Tree

theorem AtomicWrite.clear_keeps {w : AtomicWrite} {tree : Tree} {root : Path} {loc : Location}
    {m : Name} {node : Node} (hw : w.temp = root.child m) (h : tree.get? loc = some node)
    (hm : ∀ dir, loc ≠ m :: dir) : (w.clear tree).get? loc = some node := by
  unfold clear
  rw [hw]
  cases hu : tree.unlink (root.child m) with
  | error e => exact h
  | ok after => exact Tree.unlink_keeps hu h hm

end LineStore
