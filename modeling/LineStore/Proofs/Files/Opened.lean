import LineStore.Files.Calls
import LineStore.Proofs.Files.Trail

/-!
# Names in an opened directory

The stores name every file as a child of their root. `Opens` says that the root's path leads to a
directory that exists; below that, what each file operation does at a child is a question about
**one entry** (`get?` at the child's location) and about the name itself. The second half is
`refusal?`: a zero byte, a path or a name that is too long. It is decided before the tree is looked
at, so each operation has one equation: refused, or what its one entry says.
-/

namespace LineStore

namespace Path

/-- What keeps an entry called `n` in a directory from being named, whatever the tree holds. -/
def refusal? (root : Path) (n : Name) : Option FileError :=
  if root.hasZero || n.contains 0 then some .zeroInPath
  else if limit < (root.child n).length ∨ Tree.nameLimit < n.length then some .nameTooLong
  else none

theorem fault?_eq_none_iff {p : Path} :
    p.fault? = none ↔ p.hasZero = false ∧ p.length ≤ limit ∧ p.isEmpty = false := by
  unfold fault?
  cases p.hasZero <;> cases p.isEmpty <;> by_cases hl : limit < p.length <;> simp [hl] <;> omega

@[simp] theorem isEmpty_child (root : Path) (n : Name) : (root.child n).isEmpty = false := by
  simp [isEmpty, child]

@[simp] theorem slash_child (root : Path) (n : Name) : (root.child n).slash = false := rfl

theorem hasZero_child (root : Path) (n : Name) :
    (root.child n).hasZero = (root.hasZero || n.contains 0) := by
  simp [hasZero, child]

theorem length_eq (p : Path) : p.length = (if p.absolute then 1 else 0) +
    ((p.segments.map Segment.toBytes).intersperse [Segment.separator]).flatten.length +
      if p.slash then 1 else 0 := by
  unfold length toBytes
  rw [List.length_append, List.length_append]
  cases p.absolute <;> cases p.slash <;> rfl

/-- Each piece before the last one is written with a separator behind it. -/
theorem flatten_intersperse_concat (separator : Bytes) (pieces : List Bytes) (last : Bytes) :
    ((pieces ++ [last]).intersperse separator).flatten =
      pieces.flatMap (· ++ separator) ++ last := by
  induction pieces with
  | nil => simp
  | cons piece rest ih =>
    obtain ⟨next, more, hm⟩ := List.exists_cons_of_ne_nil (l := rest ++ [last]) (by simp)
    rw [hm] at ih
    rw [List.cons_append, hm, List.intersperse_cons_cons, List.flatten_cons, List.flatten_cons, ih,
      List.flatMap_cons, List.append_assoc, List.append_assoc]

/-- A child costs the same beyond what is spelled before it, however long that is. -/
theorem length_child_eq (root : Path) (n : Name) : (root.child n).length =
    (if root.absolute then 1 else 0) +
      (root.segments.flatMap fun step => step.toBytes ++ [Segment.separator]).length +
        n.length := by
  have hs : (root.child n).segments.map Segment.toBytes =
      root.segments.map Segment.toBytes ++ [n] := by
    simp [child, Segment.toBytes]
  rw [length_eq, hs, flatten_intersperse_concat, List.length_append, List.flatMap_map, slash_child,
    ← Nat.add_assoc]
  rfl

theorem length_child (root : Path) : ∃ front, ∀ n, (root.child n).length = front + n.length :=
  ⟨_, length_child_eq root⟩

theorem fault?_child (root : Path) (n : Name) :
    (root.child n).fault? =
      if (root.child n).hasZero then some .zeroInPath
      else if limit < (root.child n).length then some .nameTooLong
      else none := by
  rw [fault?, isEmpty_child]
  rfl

theorem refusal?_eq_none_iff {root : Path} {n : Name} :
    root.refusal? n = none ↔ (root.child n).fault? = none ∧ n.length ≤ Tree.nameLimit := by
  rw [refusal?, fault?_child, hasZero_child]
  cases root.hasZero || n.contains 0 with
  | true => simp
  | false =>
    by_cases hl : limit < (root.child n).length <;> by_cases hn : Tree.nameLimit < n.length <;>
      simp [hl, hn] <;> omega

theorem refusal?_eq_some_iff {root : Path} {n : Name} {e : FileError} :
    root.refusal? n = some e ↔ (root.child n).fault? = some e ∨
      (root.child n).fault? = none ∧ e = .nameTooLong ∧ Tree.nameLimit < n.length := by
  rw [refusal?, fault?_child, hasZero_child]
  cases root.hasZero || n.contains 0 with
  | true => simp
  | false =>
    by_cases hl : limit < (root.child n).length <;> by_cases hn : Tree.nameLimit < n.length <;>
      simp [hl, hn, eq_comm]

theorem refusal_cases {root : Path} {n : Name} {e : FileError} (h : root.refusal? n = some e) :
    e = .zeroInPath ∨ e = .nameTooLong := by
  unfold refusal? at h
  split at h
  · cases h
    exact .inl rfl
  · split at h
    · cases h
      exact .inr rfl
    · cases h

/-- Two paths begin at one place and have the same steps, but for those that go nowhere. -/
def Alike (p q : Path) : Prop :=
  p.absolute = q.absolute ∧ p.segments.filter (!·.stays) = q.segments.filter (!·.stays)

theorem Alike.refl (p : Path) : p.Alike p := ⟨rfl, rfl⟩

theorem Alike.symm {p q : Path} (h : p.Alike q) : q.Alike p := ⟨h.1.symm, h.2.symm⟩

theorem filter_dropWhile_stays (steps : List Segment) :
    ((steps.reverse.dropWhile Segment.stays).reverse).filter (!·.stays) =
      steps.filter (!·.stays) := by
  have hd : ∀ steps : List Segment, (steps.dropWhile Segment.stays).filter (!·.stays) =
      steps.filter (!·.stays) := by
    intro steps
    induction steps with
    | nil => rfl
    | cons step rest ih => cases hs : step.stays <;> simp [hs, ih]
  rw [List.filter_reverse, hd, List.filter_reverse, List.reverse_reverse]

theorem alike_trim (p : Path) : p.trim.Alike p := by
  unfold trim
  dsimp only
  split
  · rename_i rest ha hs
    refine ⟨ha.symm, ?_⟩
    rw [hs, List.filter_cons, List.filter_cons, filter_dropWhile_stays]
  · exact ⟨rfl, filter_dropWhile_stays _⟩

theorem length_trim_child_le (p : Path) (n : Name) :
    (p.trim.child n).length ≤ (p.child n).length := by
  have hle : ∀ steps : List Segment,
      ((steps.reverse.dropWhile Segment.stays).reverse.flatMap fun step =>
          step.toBytes ++ [Segment.separator]).length ≤
        (steps.flatMap fun step => step.toBytes ++ [Segment.separator]).length := by
    intro steps
    conv => rhs; rw [← steps.reverse_reverse,
      ← List.takeWhile_append_dropWhile (p := Segment.stays) (l := steps.reverse)]
    rw [List.reverse_append, List.flatMap_append, List.length_append]
    exact Nat.le_add_right _ _
  rw [length_child_eq, length_child_eq, p.alike_trim.1]
  refine Nat.add_le_add_right (Nat.add_le_add_left ?_ _) _
  unfold trim
  dsimp only
  split
  · rename_i rest _ hs
    simp only [hs, List.flatMap_cons, List.length_append]
    exact Nat.add_le_add_left (hle rest) _
  · exact hle _

/-- The steps that go nowhere can be left out, if they do not count. -/
theorem any_filter_stays {f : Segment → Bool} (hf : ∀ step, step.stays = true → f step = false)
    (steps : List Segment) : (steps.filter (!·.stays)).any f = steps.any f := by
  rw [List.any_filter]
  congr 1
  funext step
  cases hs : step.stays with
  | true => rw [hf step hs]; rfl
  | false => rfl

theorem Alike.hasZero_eq {p q : Path} (h : p.Alike q) : p.hasZero = q.hasZero := by
  unfold hasZero
  rw [← any_filter_stays _ p.segments, ← any_filter_stays _ q.segments, h.2]
  all_goals
    intro step hs
    cases step <;> first | rfl | cases hs

end Path

namespace Tree

variable {tree : Tree} {root near : Path} {home : Location} {n m : Name} {e : FileError}

/-- The path leads to a directory, at `home`, that exists. -/
structure Opens (tree : Tree) (root : Path) (home : Location) : Prop where
  trail : ∃ left, tree.Leads linkLimit (tree.start root) root.segments left home
  directory : tree.get? home = some .directory

theorem leads_of_follow (h : tree.follow root = .ok (home, .directory)) :
    ∃ left, tree.Leads linkLimit (tree.start root) root.segments left home := by
  obtain ⟨_, hw⟩ := walk_of_follow h
  obtain ⟨left, hl⟩ := leads_of_walk _ _ _ hw
  obtain ⟨fewer, last, hs, hr⟩ := Leads.split hl
  refine ⟨fewer, ?_⟩
  -- A separator at the end is one step more, and leads nowhere else.
  cases hb : root.slash with
  | false =>
    rw [hb] at hr
    cases hr
    exact hs
  | true =>
    rw [hb] at hr
    cases hr with
    | stay _ hr =>
      cases hr
      exact hs

theorem Leads.follow {left : Nat} (hf : root.fault? = none)
    (hl : tree.Leads linkLimit (tree.start root) root.segments left home) :
    tree.follow root = .ok (home, .directory) := by
  have hw : tree.walk .followed linkLimit (tree.start root) root.steps =
      .ok (.found home .directory) := by
    rw [Path.steps, hl.walk_append (.inl rfl)]
    cases root.slash with
    | false => exact walk_nil
    | true => exact (walk_stays rfl).trans walk_nil
  rw [Tree.follow, locate, hf]
  dsimp only
  rw [hw]
  rfl

/-- A path that leads to a directory leads there wherever directories and links are kept. -/
theorem follow_directory_of_keepsWays {other : Tree} (hk : tree.KeepsWays other)
    (hs : other.start root = tree.start root) (h : tree.follow root = .ok (home, .directory)) :
    other.follow root = .ok (home, .directory) := by
  obtain ⟨left, hl⟩ := leads_of_follow h
  apply Leads.follow (walk_of_follow h).1
  rw [hs]
  exact hl.mono hk

theorem Opens.of_follow (h : tree.follow root = .ok (home, .directory))
    (hd : tree.get? home = some .directory) : tree.Opens root home :=
  ⟨leads_of_follow h, hd⟩

theorem Opens.mono {other : Tree} (h : tree.Opens root home) (hk : tree.KeepsWays other)
    (hc : other.cwd = tree.cwd) : other.Opens root home := by
  obtain ⟨⟨left, hl⟩, hd⟩ := h
  refine ⟨⟨left, ?_⟩, hk _ _ (by simp) hd⟩
  have hs : other.start root = tree.start root := by rw [start, start, hc]
  rw [hs]
  exact hl.mono hk

/-- Paths that are alike open the same directory. -/
theorem Opens.alike (h : tree.Opens root home) (hn : near.Alike root) :
    tree.Opens near home := by
  obtain ⟨left, hl⟩ := h.trail
  refine ⟨⟨left, ?_⟩, h.directory⟩
  rw [start, hn.1]
  exact hl.congr hn.2

theorem Opens.follow (h : tree.Opens root home) (hf : root.fault? = none) :
    tree.follow root = .ok (home, .directory) := by
  obtain ⟨left, hl⟩ := h.trail
  exact hl.follow hf

theorem Opens.readDirectory (h : tree.Opens root home) (hf : root.fault? = none) :
    tree.readDirectory root = .ok (home, (tree.children home).map (·.1)) := by
  rw [Tree.readDirectory, h.follow hf]

theorem mem_children {node : Node} :
    (n, node) ∈ tree.children home ↔ tree.get? (n :: home) = some node := by
  rw [children, List.mem_map, get?_cons_eq_some_iff]
  constructor
  · rintro ⟨⟨dir, m, other⟩, he, hp⟩
    cases hp
    obtain ⟨hm, hd⟩ := List.mem_filter.1 he
    rw [← of_decide_eq_true hd]
    exact hm
  · intro hm
    exact ⟨⟨home, n, node⟩, List.mem_filter.2 ⟨hm, decide_eq_true rfl⟩, rfl⟩

/-- A directory lists each name once. -/
theorem children_nodup (tree : Tree) (dir : Location) :
    ((tree.children dir).map (·.1)).Nodup := by
  have hd : tree.entries.Pairwise fun a b => a.location ≠ b.location :=
    List.pairwise_map.1 tree.distinct
  rw [children, List.map_map]
  apply List.pairwise_map.2
  apply (hd.sublist List.filter_sublist).imp_of_mem
  intro a b ha hb hne hn
  have hda : a.dir = dir := by simpa using (List.mem_filter.1 ha).2
  have hdb : b.dir = dir := by simpa using (List.mem_filter.1 hb).2
  apply hne
  show a.name :: a.dir = b.name :: b.dir
  rw [hda, hdb]
  exact congrArg (· :: dir) hn

/-! ## Where a child is -/

theorem Opens.doorstep (h : tree.Opens root home) (hf : (root.child n).fault? = none) :
    tree.doorstep (root.child n) = .ok (home, .name n) := by
  obtain ⟨left, hl⟩ := h.trail
  have hw : tree.walk .followed linkLimit (tree.start (root.child n)) (root.segments ++ [.here]) =
      .ok (.found home .directory) := by
    rw [show tree.start (root.child n) = tree.start root from rfl, hl.walk_append (.inl rfl),
      walk_stays rfl, walk_nil]
  have hs : (root.child n).segments.reverse.dropWhile (· = .blank) =
      .name n :: root.segments.reverse := by
    simp [Path.child]
  rw [Tree.doorstep, hf]
  dsimp only
  rw [hs]
  dsimp only
  rw [List.reverse_reverse, hw]

/-- Where a child has a doorstep at all, the path has been gone before it. -/
theorem leads_of_doorstep {dir : Location} {last : Segment}
    (h : tree.doorstep (root.child n) = .ok (dir, last)) :
    last = .name n ∧ (root.child n).fault? = none ∧
      ∃ left, tree.Leads linkLimit (tree.start root) root.segments left dir := by
  have hs : (root.child n).segments.reverse.dropWhile (· = .blank) =
      .name n :: root.segments.reverse := by
    simp [Path.child]
  unfold Tree.doorstep at h
  split at h
  · cases h
  · rename_i hf
    rw [hs] at h
    dsimp only at h
    rw [List.reverse_reverse] at h
    split at h
    · rename_i hw
      cases h
      obtain ⟨left, home, hl, hw⟩ :=
        exists_leads_of_walk_append ⟨.here, by simp, by simp⟩ _ _ _ hw
      rw [walk_stays rfl, walk_nil] at hw
      cases hw
      exact ⟨rfl, hf, left, hl⟩
    · cases h
    · cases h

theorem Opens.locate (h : tree.Opens root home) (hf : (root.child n).fault? = none)
    (ending : Ending) : ∃ left,
    tree.locate ending (root.child n) = tree.walk ending left home [.name n] := by
  obtain ⟨left, hl⟩ := h.trail
  refine ⟨left, ?_⟩
  rw [Tree.locate, hf, Path.steps_child]
  exact hl.walk_append (.inr ⟨.name n, by simp, by simp⟩)

theorem Opens.locate_vacant (h : tree.Opens root home) (hr : root.refusal? n = none)
    (hv : tree.get? (n :: home) = none) (ending : Ending) :
    tree.locate ending (root.child n) = .ok (.vacant home n) := by
  obtain ⟨hf, hn⟩ := Path.refusal?_eq_none_iff.1 hr
  obtain ⟨left, hw⟩ := h.locate hf ending
  rw [hw, walk_name, if_neg (by simp), if_neg (by omega), hv]
  rfl

theorem Opens.locate_found {node : Node} (h : tree.Opens root home) (hr : root.refusal? n = none)
    (hg : tree.get? (n :: home) = some node) (hl : ∀ target, node ≠ .link target)
    (ending : Ending) : tree.locate ending (root.child n) = .ok (.found (n :: home) node) := by
  obtain ⟨hf, hn⟩ := Path.refusal?_eq_none_iff.1 hr
  obtain ⟨left, hw⟩ := h.locate hf ending
  rw [hw, walk_name, if_neg (by simp), if_neg (by omega), hg]
  cases node with
  | directory => exact walk_nil
  | file f => rfl
  | link target => exact absurd rfl (hl target)

theorem Opens.locate_refused (h : tree.Opens root home) (hr : root.refusal? n = some e)
    (ending : Ending) : tree.locate ending (root.child n) = .error e := by
  rcases Path.refusal?_eq_some_iff.1 hr with hf | ⟨hf, rfl, hn⟩
  · rw [Tree.locate, hf]
  · obtain ⟨left, hw⟩ := h.locate hf ending
    rw [hw, walk_name, if_neg (by simp), if_pos hn]

/-! ## Operations on a child -/

theorem Opens.follow_child (h : tree.Opens root home)
    (hl : ∀ target, tree.get? (n :: home) ≠ some (.link target)) :
    tree.follow (root.child n) =
      match root.refusal? n with
      | some e => .error e
      | none =>
        match tree.get? (n :: home) with
        | none => .error .absent
        | some node => .ok (n :: home, node) := by
  cases hr : root.refusal? n with
  | some e => rw [Tree.follow, h.locate_refused hr]; rfl
  | none =>
    cases hg : tree.get? (n :: home) with
    | none => rw [Tree.follow, h.locate_vacant hr hg]; rfl
    | some node =>
      rw [Tree.follow, h.locate_found hr hg fun target he => hl target (he ▸ hg)]
      rfl

theorem Opens.unlink_child (h : tree.Opens root home) :
    tree.unlink (root.child n) =
      match root.refusal? n with
      | some e => .error e
      | none =>
        match tree.get? (n :: home) with
        | none => .error .absent
        | some .directory => .error .isDirectory
        | some _ => .ok (tree.detach (n :: home)) := by
  cases hr : root.refusal? n with
  | some e =>
    rcases Path.refusal?_eq_some_iff.1 hr with hf | ⟨hf, rfl, hn⟩
    · rw [unlink, Tree.doorstep, hf]
    · rw [unlink, h.doorstep hf]
      exact if_pos hn
  | none =>
    obtain ⟨hf, hn⟩ := Path.refusal?_eq_none_iff.1 hr
    rw [unlink, h.doorstep hf]
    dsimp only
    rw [if_neg (by omega)]
    cases tree.get? (n :: home) with
    | none => rfl
    | some node => cases node <;> rfl

theorem Opens.unlink_ok {after : Tree} (h : tree.Opens root home)
    (hu : tree.unlink (root.child n) = .ok after) :
    ∃ node, tree.get? (n :: home) = some node ∧ node ≠ .directory ∧
      after = tree.detach (n :: home) := by
  rw [h.unlink_child] at hu
  split at hu
  · cases hu
  · split at hu
    · cases hu
    · cases hu
    · rename_i node hf hg
      cases hu
      exact ⟨node, hg, hf, rfl⟩

theorem Opens.freeName_child (h : tree.Opens root home) :
    tree.freeName (root.child n) =
      match root.refusal? n with
      | some e => .error e
      | none => if (tree.get? (n :: home)).isSome then .error .occupied else .ok (home, n) := by
  cases hr : root.refusal? n with
  | some e =>
    rcases Path.refusal?_eq_some_iff.1 hr with hf | ⟨hf, rfl, hn⟩
    · rw [freeName, Tree.doorstep, hf]
    · rw [freeName, h.doorstep hf]
      exact if_pos hn
  | none =>
    obtain ⟨hf, hn⟩ := Path.refusal?_eq_none_iff.1 hr
    rw [freeName, h.doorstep hf]
    exact if_neg (by omega)

theorem Opens.create_child {now : Instant} (h : tree.Opens root home)
    (hv : tree.get? (n :: home) = none) :
    tree.create (root.child n) now =
      match root.refusal? n with
      | some e => .error e
      | none =>
        .ok (tree.freshId, tree.attach home n (.file ⟨tree.freshId, [], now⟩)) := by
  cases hr : root.refusal? n with
  | some e => rw [create, h.locate_refused hr]
  | none => rw [create, h.locate_vacant hr hv]

/-- What a check on two paths says of the second, if nothing is wrong with the first. -/
theorem refused_pair {α : Type} {go : Except FileError α} (hm : (near.child m).fault? = none) :
    (if (near.child m).hasZero || (root.child n).hasZero then .error .zeroInPath
      else if Path.limit < (near.child m).length ∨ Path.limit < (root.child n).length then
        .error .nameTooLong
      else go) =
      match (root.child n).fault? with
      | some e => .error e
      | none => go := by
  obtain ⟨hz, hl, _⟩ := Path.fault?_eq_none_iff.1 hm
  rw [hz, Bool.false_or, Path.fault?_child]
  by_cases hz' : (root.child n).hasZero = true
  · rw [if_pos hz', if_pos hz']
  · rw [if_neg hz', if_neg hz']
    by_cases hl' : Path.limit < (root.child n).length
    · rw [if_pos (.inr hl'), if_pos hl']
    · rw [if_neg (by omega), if_neg hl']

theorem Opens.link_child {file : File} (h : tree.Opens root home) (hn : tree.Opens near home)
    (hm : near.refusal? m = none) (hg : tree.get? (m :: home) = some (.file file)) :
    tree.link (near.child m) (root.child n) =
      match root.refusal? n with
      | some e => .error e
      | none =>
        if (tree.get? (n :: home)).isSome then .error .occupied
        else .ok (tree.attach home n (.file file)) := by
  have hm' := (Path.refusal?_eq_none_iff.1 hm).1
  rw [Tree.link, refused_pair hm', hn.locate_found hm hg (by simp)]
  dsimp only
  rw [h.freeName_child]
  cases hr : root.refusal? n with
  | some e =>
    rcases Path.refusal?_eq_some_iff.1 hr with hf | ⟨hf, rfl, _⟩
    · rw [hf]
    · rw [hf]
  | none =>
    rw [(Path.refusal?_eq_none_iff.1 hr).1]
    cases tree.get? (n :: home) <;> rfl

theorem Opens.link_ok {file : File} {after : Tree} (h : tree.Opens root home)
    (hn : tree.Opens near home) (hm : near.refusal? m = none)
    (hg : tree.get? (m :: home) = some (.file file))
    (hl : tree.link (near.child m) (root.child n) = .ok after) :
    root.refusal? n = none ∧ tree.get? (n :: home) = none ∧
      after = tree.attach home n (.file file) := by
  rw [h.link_child hn hm hg] at hl
  split at hl
  · cases hl
  · rename_i hr
    split at hl
    · cases hl
    · rename_i hv
      cases hl
      exact ⟨hr, Option.not_isSome_iff_eq_none.1 hv, rfl⟩

theorem Opens.rename_child {file : File} (h : tree.Opens root home) (hn : tree.Opens near home)
    (hm : near.refusal? m = none) (hg : tree.get? (m :: home) = some (.file file)) (hne : m ≠ n)
    (hs : ∀ other, tree.get? (n :: home) = some (.file other) → file.id ≠ other.id) :
    tree.rename (near.child m) (root.child n) =
      match root.refusal? n with
      | some e => .error e
      | none =>
        match tree.get? (n :: home) with
        | none => .ok ((tree.detach (m :: home)).attach home n (.file file))
        | some .directory => .error .isDirectory
        | some _ =>
          .ok (((tree.detach (m :: home)).detach (n :: home)).attach home n (.file file)) := by
  obtain ⟨hm', hml⟩ := Path.refusal?_eq_none_iff.1 hm
  rw [Tree.rename, refused_pair hm', hn.doorstep hm']
  cases hr : root.refusal? n with
  | some e =>
    rcases Path.refusal?_eq_some_iff.1 hr with hf | ⟨hf, rfl, hn⟩
    · rw [hf]
    · rw [hf, h.doorstep hf]
      dsimp only
      rw [if_neg (by omega), hg]
      exact if_pos hn
  | none =>
    obtain ⟨hf, hn⟩ := Path.refusal?_eq_none_iff.1 hr
    rw [hf, h.doorstep hf]
    dsimp only
    rw [if_neg (by omega), hg]
    dsimp only
    rw [if_neg (by omega), if_neg (by simp), if_neg (by simp)]
    cases ho : tree.get? (n :: home) with
    | none => rfl
    | some other =>
      cases other with
      | directory => rfl
      | link target =>
        dsimp only
        rw [if_neg (by simp [sameFile, hne])]
      | file other =>
        dsimp only
        rw [if_neg (by simp [sameFile, hne, hs other ho])]

end Tree
end LineStore
