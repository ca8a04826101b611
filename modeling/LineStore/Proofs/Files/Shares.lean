import LineStore.Proofs.Files.Bystanders

/-!
# What a directory holds under names of one kind

Two stores can share a directory, each with names of its own kind. The `share` of one of them is
what the directory holds under its names, in the order in which it is listed, and without the
numbers of the files, which nobody can see. What is read under such a name can be told from the
share (`glance_eq_of_share_eq`), and changes made under other names, or in other directories, do not
show in it (`Edits.share_eq`).
-/

namespace LineStore

/-- What a name stands for, without the number of the file. -/
def Node.unnumbered : Node → Node
  | .file f => .file { f with id := 0 }
  | node => node

@[simp] theorem Node.unnumbered_eq_directory_iff {node : Node} :
    node.unnumbered = .directory ↔ node = .directory := by
  cases node <;> simp [Node.unnumbered]

namespace Tree

variable {tree other after : Tree} {root p : Path} {home dir loc : Location} {n : Name}
  {node : Node} {mine : Name → Bool}

/-- What a directory holds under names of one kind. -/
def share (tree : Tree) (home : Location) (mine : Name → Bool) : List (Name × Node) :=
  ((tree.children home).filter (mine ·.1)).map fun c => (c.1, c.2.unnumbered)

theorem mem_share {x : Node} : (n, x) ∈ tree.share home mine ↔
    mine n = true ∧ (tree.get? (n :: home)).map Node.unnumbered = some x := by
  unfold share
  rw [List.mem_map, Option.map_eq_some_iff]
  constructor
  · rintro ⟨⟨m, node⟩, hm, he⟩
    cases he
    obtain ⟨hc, hmine⟩ := List.mem_filter.1 hm
    exact ⟨hmine, node, mem_children.1 hc, rfl⟩
  · rintro ⟨hmine, node, hg, rfl⟩
    exact ⟨(n, node), List.mem_filter.2 ⟨mem_children.2 hg, hmine⟩, rfl⟩

/-- Two equal shares have one look at each of their names. -/
theorem get?_eq_of_share_eq (h : tree.share home mine = other.share home mine)
    (hn : mine n = true) :
    (tree.get? (n :: home)).map Node.unnumbered = (other.get? (n :: home)).map Node.unnumbered := by
  apply Option.ext
  intro x
  have hm : (n, x) ∈ tree.share home mine ↔ (n, x) ∈ other.share home mine := by rw [h]
  rw [mem_share, mem_share] at hm
  simpa [hn] using hm

/-! ## What is read -/

/-- What a path leads to, without the number of the file. -/
def glance (tree : Tree) (p : Path) : Except FileError Node :=
  (tree.follow p).map (·.2.unnumbered)

theorem fileExists_eq_glance (tree : Tree) (p : Path) :
    tree.fileExists p =
      match tree.glance p with
      | .ok (.file _) => .ok true
      | .ok _ => .ok false
      | .error .absent => .ok false
      | .error e => .error e := by
  unfold fileExists glance
  rcases tree.follow p with e | ⟨loc, node⟩
  · cases e <;> rfl
  · cases node <;> rfl

theorem readBytes_eq_glance (tree : Tree) (p : Path) :
    tree.readBytes p =
      match tree.glance p with
      | .ok (.file f) => .ok f.bytes
      | .ok .directory => .error .isDirectory
      | .ok (.link _) => .error .tooManyLinks
      | .error e => .error e := by
  unfold readBytes glance
  rcases tree.follow p with e | ⟨loc, node⟩
  · rfl
  · cases node <;> rfl

theorem fileExists_congr (h : tree.glance p = other.glance p) :
    tree.fileExists p = other.fileExists p := by
  rw [fileExists_eq_glance, fileExists_eq_glance, h]

theorem readText?_congr (h : tree.glance p = other.glance p) :
    tree.readText? p = other.readText? p := by
  rw [readText?, readText?, readBytes_eq_glance, readBytes_eq_glance, h]

theorem Opens.glance_child (h : tree.Opens root home)
    (hl : ∀ target, tree.get? (n :: home) ≠ some (.link target)) :
    tree.glance (root.child n) =
      match root.refusal? n with
      | some e => .error e
      | none =>
        match (tree.get? (n :: home)).map Node.unnumbered with
        | none => .error .absent
        | some node => .ok node := by
  unfold glance
  rw [h.follow_child hl]
  cases root.refusal? n with
  | some e => rfl
  | none => cases tree.get? (n :: home) <;> rfl

/-- **With equal shares, the same is read under each of their names.** -/
theorem glance_eq_of_share_eq (h : tree.Opens root home) (h' : other.Opens root home)
    (hl : ∀ loc target, tree.get? loc ≠ some (.link target))
    (hl' : ∀ loc target, other.get? loc ≠ some (.link target))
    (hs : tree.share home mine = other.share home mine) (hn : mine n = true) :
    tree.glance (root.child n) = other.glance (root.child n) := by
  rw [h.glance_child (hl _), h'.glance_child (hl' _), get?_eq_of_share_eq hs hn]

/-! ## What is changed -/

theorem children_detach (hd : tree.get? loc ≠ some .directory) :
    (tree.detach loc).children home =
      (tree.children home).filter fun c => c.1 :: home ≠ loc := by
  rw [children, children, detach, dif_pos hd, List.filter_map]
  dsimp only
  rw [List.filter_filter, List.filter_filter]
  congr 1
  apply List.filter_congr
  intro e _
  by_cases he : e.dir = home
  · simp [he, Entry.location]
  · simp [he]

theorem share_detach (hd : tree.get? loc ≠ some .directory) :
    (tree.detach loc).share home mine =
      (tree.share home mine).filter fun c => c.1 :: home ≠ loc := by
  rw [share, share, children_detach hd, List.filter_map, List.filter_filter, List.filter_filter]
  congr 1
  apply List.filter_congr
  intro c _
  exact Bool.and_comm _ _

theorem share_attach (hd : tree.get? dir = some .directory) (hv : tree.get? (n :: dir) = none) :
    (tree.attach dir n node).share home mine =
      if dir = home ∧ mine n = true then (n, node.unnumbered) :: tree.share home mine
      else tree.share home mine := by
  rw [share, share, children, children, attach_entries hd hv, List.filter_cons]
  by_cases he : dir = home
  · subst he
    rw [if_pos (by simp), List.map_cons, List.filter_cons]
    by_cases hn : mine n = true
    · rw [if_pos hn, if_pos ⟨rfl, hn⟩]
      rfl
    · rw [if_neg hn, if_neg (by simp [hn])]
  · rw [if_neg (by simpa using he), if_neg (by simp [he])]

/-- What is not in the share can be taken away. -/
theorem share_detach_other (hd : tree.get? loc ≠ some .directory)
    (hn : ∀ n, loc = n :: home → mine n = false) :
    (tree.detach loc).share home mine = tree.share home mine := by
  rw [share_detach hd, List.filter_eq_self]
  rintro ⟨m, x⟩ hm
  have hmine := (mem_share.1 hm).1
  apply decide_eq_true
  intro he
  rw [hn m he.symm] at hmine
  cases hmine

theorem share_place (hd : tree.get? dir = some .directory)
    (hf : tree.get? (n :: dir) ≠ some .directory) :
    (tree.place dir n node).share home mine =
      if dir = home ∧ mine n = true then
        (n, node.unnumbered) :: (tree.share home mine).filter fun c => c.1 :: home ≠ n :: dir
      else (tree.share home mine).filter fun c => c.1 :: home ≠ n :: dir := by
  have hg := get?_detach hf
  rw [place, share_attach (by rw [hg, if_neg (by simp)]; exact hd) (by rw [hg, if_pos rfl]),
    share_detach hf]

theorem share_place_other (hd : tree.get? dir = some .directory)
    (hf : tree.get? (n :: dir) ≠ some .directory)
    (hn : ∀ m, n :: dir = m :: home → mine m = false) :
    (tree.place dir n node).share home mine = tree.share home mine := by
  rw [share_place hd hf, if_neg, ← share_detach hf, share_detach_other hf hn]
  rintro ⟨rfl, hmine⟩
  rw [hn n rfl] at hmine
  cases hmine

theorem Opens.unlink_child_unnumbered (h : tree.Opens root home) :
    tree.unlink (root.child n) =
      match root.refusal? n with
      | some e => .error e
      | none =>
        match (tree.get? (n :: home)).map Node.unnumbered with
        | none => .error .absent
        | some .directory => .error .isDirectory
        | some _ => .ok (tree.detach (n :: home)) := by
  rw [h.unlink_child]
  rcases tree.get? (n :: home) with _ | (_ | _ | _) <;> rfl

/-- **With equal shares, the same comes of a removal under each of their names.** -/
theorem unlink_of_share_eq (h : tree.Opens root home) (h' : other.Opens root home)
    (hs : tree.share home mine = other.share home mine) (hn : mine n = true) :
    (∃ e, tree.unlink (root.child n) = .error e ∧ other.unlink (root.child n) = .error e) ∨
      ∃ left right, tree.unlink (root.child n) = .ok left ∧
        other.unlink (root.child n) = .ok right ∧ left.share home mine = right.share home mine := by
  have hlook := get?_eq_of_share_eq hs hn
  have hplain : ∀ {t : Tree}, (t.get? (n :: home)).map Node.unnumbered ≠ some .directory →
      t.get? (n :: home) ≠ some .directory := by
    intro t hf hg
    rw [hg] at hf
    exact hf rfl
  rw [h.unlink_child_unnumbered, h'.unlink_child_unnumbered, hlook]
  split
  · exact .inl ⟨_, rfl, rfl⟩
  split
  · exact .inl ⟨_, rfl, rfl⟩
  · exact .inl ⟨_, rfl, rfl⟩
  · rename_i node hf hg
    have hne : (other.get? (n :: home)).map Node.unnumbered ≠ some .directory := by
      rw [hg]
      simpa using hf
    refine .inr ⟨_, _, rfl, rfl, ?_⟩
    rw [share_detach (hplain (hlook ▸ hne)), share_detach (hplain hne), hs]

/-- Entries of a directory, with names of one kind, are taken away, and files are placed there, each
with a number of its own. -/
inductive Edits (home : Location) (mine : Name → Prop) (tree : Tree) : Tree → Prop
  | refl : Edits home mine tree tree
  | detach {after : Tree} {n : Name} (h : Edits home mine tree after) (hn : mine n)
      (hd : after.get? (n :: home) ≠ some .directory) :
      Edits home mine tree (after.detach (n :: home))
  | place {after : Tree} {n : Name} {file : File} (h : Edits home mine tree after) (hn : mine n)
      (hd : after.get? (n :: home) ≠ some .directory)
      (hid : ∀ loc f, after.get? loc = some (.file f) → f.id ≠ file.id) :
      Edits home mine tree (after.place home n (.file file))

namespace Edits

variable {kind : Name → Prop}

theorem cwd (h : Edits home kind tree after) : after.cwd = tree.cwd := by
  induction h with
  | refl => rfl
  | detach _ _ _ ih => exact detach_cwd.trans ih
  | place _ _ _ _ ih => exact place_cwd.trans ih

variable (ho : tree.get? home = some .directory)

include ho

theorem directory (h : Edits home kind tree after) (hg : tree.get? loc = some .directory) :
    after.get? loc = some .directory := by
  induction h generalizing loc with
  | refl => exact hg
  | detach _ _ hd ih =>
    rw [get?_detach hd, if_neg]
    · exact ih hg
    · rintro rfl
      exact hd (ih hg)
  | place _ _ hd _ ih =>
    rw [get?_place _ (ih ho) hd, if_neg]
    · exact ih hg
    · rintro rfl
      exact hd (ih hg)

/-- Whatever is new is a file. -/
theorem old (h : Edits home kind tree after) (hg : after.get? loc = some node) :
    (∃ file, node = .file file) ∨ tree.get? loc = some node := by
  induction h with
  | refl => exact .inr hg
  | detach _ _ hd ih =>
    rw [get?_detach hd] at hg
    split at hg
    · cases hg
    · exact ih hg
  | place h _ hd _ ih =>
    rw [get?_place _ (h.directory ho ho) hd] at hg
    split at hg
    · cases hg
      exact .inl ⟨_, rfl⟩
    · exact ih hg

theorem unlinked (h : Edits home kind tree after)
    (hl : ∀ loc target, tree.get? loc ≠ some (.link target)) (loc : Location) (target : Bytes) :
    after.get? loc ≠ some (.link target) := by
  intro hg
  rcases h.old ho hg with ⟨file, hf⟩ | hold
  · cases hf
  · exact hl loc target hold

theorem opens (h : Edits home kind tree after) {q : Path} {there : Location}
    (hl : ∀ loc target, tree.get? loc ≠ some (.link target)) (hq : tree.Opens q there) :
    after.Opens q there := by
  refine hq.mono (fun loc node hf hg => ?_) h.cwd
  cases node with
  | directory => exact h.directory ho hg
  | file f => exact absurd rfl (hf f)
  | link target => exact absurd hg (hl loc target)

/-- **A file that has no other name gets none.** -/
theorem lone (h : Edits home kind tree after) (hl : tree.Lone loc) : after.Lone loc := by
  induction h with
  | refl => exact hl
  | detach _ _ hd ih =>
    intro node hg
    rw [get?_detach hd] at hg
    split at hg
    · cases hg
    · obtain ⟨file, rfl, honly⟩ := ih node hg
      refine ⟨file, rfl, fun other f hf hid => honly other f ?_ hid⟩
      rw [get?_detach hd] at hf
      split at hf
      · cases hf
      · exact hf
  | @place before k new h _ hd hnew ih =>
    have hplace := get?_place (.file new) (h.directory ho ho) hd
    intro node hg
    rw [hplace] at hg
    split at hg
    · rename_i hloc
      cases hg
      refine ⟨new, rfl, fun other f hf hid => ?_⟩
      rw [hplace] at hf
      split at hf
      · rename_i hother
        rw [hother, hloc]
      · exact absurd hid (hnew other f hf)
    · obtain ⟨file, rfl, honly⟩ := ih node hg
      refine ⟨file, rfl, fun other f hf hid => ?_⟩
      rw [hplace] at hf
      split at hf
      · cases hf
        exact absurd hid.symm (hnew _ file hg)
      · exact honly other f hf hid

/-- **Edits elsewhere, or under other names, do not show.** -/
theorem share_eq (h : Edits home kind tree after) {there : Location}
    (hn : there = home → ∀ n, kind n → mine n = false) :
    after.share there mine = tree.share there mine := by
  have hother : ∀ n, kind n → ∀ m, n :: home = m :: there → mine m = false := by
    intro n hk m he
    cases he
    exact hn rfl n hk
  induction h with
  | refl => rfl
  | detach _ hk hd ih => exact (share_detach_other hd (hother _ hk)).trans ih
  | place h hk hd _ ih =>
    exact (share_place_other (h.directory ho ho) hd (hother _ hk)).trans ih

end Edits
end Tree
end LineStore
