import LineStore.Files.Path

/-!
# The file tree

A tree is the list of its directory entries. Two facts about that list travel with it, because every
operation keeps them and every argument about paths leans on them: no location is taken twice, and
every entry sits in a directory. The root is a directory without an entry of its own.

A file carries a number. Entries with one number are names of one file, so writing the file shows
under all of them; `setFile` is the only operation that writes, and it goes by number.

The time of a file is the time of its bytes and stands with them. A directory is modified whenever a
name in it comes or goes; the host keeps the times of the directories, by what `names?` finds before
and after an operation.
-/

namespace LineStore

/-- Nanoseconds since the epoch, which may lie after the moment. -/
abbrev Instant := Int

/-- A regular file. -/
structure File where
  /-- Names with the same number are names of the same file. -/
  id : Nat
  bytes : Bytes
  modified : Instant
  deriving DecidableEq, Repr

/-- What a name can stand for. -/
inductive Node
  | directory
  | file (file : File)
  /-- A symbolic link, with the path it holds, which need not lead anywhere. -/
  | link (target : Bytes)
  deriving DecidableEq, Repr

/-- A name in a directory. -/
structure Entry where
  dir : Location
  name : Name
  node : Node
  deriving DecidableEq, Repr

namespace Entry

/-- Where the entry is. -/
def location (e : Entry) : Location := e.name :: e.dir

end Entry

/-- The directory entries below the root, and the directory in which relative paths start. -/
structure Tree where
  entries : List Entry
  cwd : Location
  /-- No location is taken twice. -/
  distinct : (entries.map Entry.location).Nodup
  /-- Every entry sits in a directory. -/
  rooted : ∀ e ∈ entries, e.dir = [] ∨ ∃ d ∈ entries, d.location = e.dir ∧ d.node = .directory

namespace Tree

/-- A tree with nothing in it. -/
def empty : Tree := ⟨[], [], by simp, by simp⟩

theorem ext {s t : Tree} (he : s.entries = t.entries) (hc : s.cwd = t.cwd) : s = t := by
  cases s
  cases t
  simp_all

/-! ## Looking -/

/-- What is at a location. -/
def get? (tree : Tree) : Location → Option Node
  | [] => some .directory
  | loc => (tree.entries.find? (·.location = loc)).map (·.node)

/-- The names in a directory, with what they stand for. -/
def children (tree : Tree) (dir : Location) : List (Name × Node) :=
  (tree.entries.filter (·.dir = dir)).map fun e => (e.name, e.node)

/-- The names in a directory; nothing where there is no directory. -/
def names? (tree : Tree) (dir : Location) : Option (List Name) :=
  if tree.get? dir = some .directory then some ((tree.children dir).map (·.1)) else none

@[simp] theorem get?_nil (tree : Tree) : tree.get? [] = some .directory := rfl

theorem get?_cons (tree : Tree) (name : Name) (dir : Location) :
    tree.get? (name :: dir) =
      (tree.entries.find? (·.location = name :: dir)).map (·.node) := rfl

private theorem eq_of_location {es : List Entry} (h : (es.map Entry.location).Nodup) {d e : Entry}
    (hd : d ∈ es) (he : e ∈ es) (hl : d.location = e.location) : d = e := by
  induction es with
  | nil => cases hd
  | cons x rest ih =>
    simp only [List.map_cons, List.nodup_cons, List.mem_map, not_exists, not_and] at h
    rcases List.mem_cons.1 hd with hdx | hdr
    · rcases List.mem_cons.1 he with hex | her
      · rw [hdx, hex]
      · exact absurd (hdx ▸ hl.symm) (h.1 e her)
    · rcases List.mem_cons.1 he with hex | her
      · exact absurd (hex ▸ hl) (h.1 d hdr)
      · exact ih h.2 hdr her

/-- Two entries at one location are one entry. -/
theorem eq_of_location_eq (tree : Tree) {d e : Entry} (hd : d ∈ tree.entries)
    (he : e ∈ tree.entries) (hl : d.location = e.location) : d = e :=
  eq_of_location tree.distinct hd he hl

/-- Looking up a location finds exactly the entry that is there. -/
theorem get?_cons_eq_some_iff (tree : Tree) {name : Name} {dir : Location} {node : Node} :
    tree.get? (name :: dir) = some node ↔ ⟨dir, name, node⟩ ∈ tree.entries := by
  rw [get?_cons, Option.map_eq_some_iff]
  constructor
  · rintro ⟨e, he, rfl⟩
    have hl := List.find?_some he
    simp only [Entry.location, decide_eq_true_eq, List.cons.injEq] at hl
    obtain ⟨rfl, rfl⟩ := hl
    exact List.mem_of_find?_eq_some he
  · intro hm
    cases hf : tree.entries.find? (·.location = name :: dir) with
    | none =>
      have := List.find?_eq_none.1 hf _ hm
      simp [Entry.location] at this
    | some e =>
      have hl := List.find?_some hf
      simp only [decide_eq_true_eq] at hl
      have := tree.eq_of_location_eq (List.mem_of_find?_eq_some hf) hm hl
      exact ⟨e, rfl, by rw [this]⟩

theorem get?_cons_eq_none_iff (tree : Tree) {name : Name} {dir : Location} :
    tree.get? (name :: dir) = none ↔ ∀ e ∈ tree.entries, e.location ≠ name :: dir := by
  simp [get?_cons]

theorem get?_location (tree : Tree) {e : Entry} (he : e ∈ tree.entries) :
    tree.get? e.location = some e.node :=
  tree.get?_cons_eq_some_iff.2 he

/-- Whatever is there, is in a directory. -/
theorem get?_dir (tree : Tree) {name : Name} {dir : Location} {node : Node}
    (h : tree.get? (name :: dir) = some node) : tree.get? dir = some .directory := by
  rcases tree.rooted _ (tree.get?_cons_eq_some_iff.1 h) with hd | ⟨d, hm, hl, hn⟩
  · simp [show dir = [] from hd]
  · have := tree.get?_location hm
    rwa [hl, hn] at this

/-- Two trees with the same directory entries in some order look the same everywhere. -/
theorem get?_congr {s t : Tree} (h : ∀ e, e ∈ s.entries ↔ e ∈ t.entries) (loc : Location) :
    s.get? loc = t.get? loc := by
  cases loc with
  | nil => rfl
  | cons name dir =>
    apply Option.ext
    intro node
    rw [get?_cons_eq_some_iff, get?_cons_eq_some_iff, h]

/-! ## Changing -/

/-- The tree with a new entry, where the directory exists and the name is free. -/
def attach (tree : Tree) (dir : Location) (name : Name) (node : Node) : Tree :=
  if h : tree.get? dir = some .directory ∧ tree.get? (name :: dir) = none then
    { tree with
      entries := ⟨dir, name, node⟩ :: tree.entries
      distinct := by
        simp only [List.map_cons, List.nodup_cons, List.mem_map, not_exists, not_and]
        exact ⟨tree.get?_cons_eq_none_iff.1 h.2, tree.distinct⟩
      rooted := by
        intro e he
        rcases List.mem_cons.1 he with rfl | he
        · cases dir with
          | nil => exact .inl rfl
          | cons n up =>
            exact .inr ⟨_, List.mem_cons_of_mem _ (tree.get?_cons_eq_some_iff.1 h.1), rfl, rfl⟩
        · exact (tree.rooted e he).imp_right fun ⟨d, hd, hl⟩ =>
            ⟨d, List.mem_cons_of_mem _ hd, hl⟩ }
  else tree

/-- The tree without the entry at a location. A directory stays. -/
def detach (tree : Tree) (loc : Location) : Tree :=
  if h : tree.get? loc ≠ some .directory then
    { tree with
      entries := tree.entries.filter (·.location ≠ loc)
      distinct := tree.distinct.sublist (List.filter_sublist.map _)
      rooted := by
        intro e he
        refine (tree.rooted e (List.mem_filter.1 he).1).imp_right ?_
        rintro ⟨d, hd, hl, hn⟩
        refine ⟨d, List.mem_filter.2 ⟨hd, ?_⟩, hl, hn⟩
        simp only [ne_eq, decide_not, Bool.not_eq_true', decide_eq_false_iff_not]
        rintro rfl
        exact h (hn ▸ tree.get?_location hd) }
  else tree

/-- The tree without the entry at a location and without all that lies below it. -/
def prune (tree : Tree) (loc : Location) : Tree :=
  { tree with
    entries := tree.entries.filter fun e => !loc.isSuffixOf e.location
    distinct := tree.distinct.sublist (List.filter_sublist.map _)
    rooted := by
      intro e he
      obtain ⟨hm, hs⟩ := List.mem_filter.1 he
      refine (tree.rooted e hm).imp_right ?_
      rintro ⟨d, hd, hl, hn⟩
      refine ⟨d, List.mem_filter.2 ⟨hd, ?_⟩, hl, hn⟩
      simp only [Bool.not_eq_true', Bool.eq_false_iff, ne_eq, List.isSuffixOf_iff_suffix] at hs ⊢
      intro hsub
      exact hs (hl ▸ hsub |>.trans (List.suffix_cons _ _)) }

/-- `node` with new bytes and a new time, if it is the file with the number `id`. -/
def overwriteNode (id : Nat) (bytes : Bytes) (now : Instant) : Node → Node
  | .file f => if f.id = id then .file ⟨id, bytes, now⟩ else .file f
  | node => node

@[simp] theorem overwriteNode_eq_directory_iff {id : Nat} {bytes : Bytes} {now : Instant}
    {node : Node} : overwriteNode id bytes now node = .directory ↔ node = .directory := by
  cases node <;> simp only [overwriteNode, reduceCtorEq]
  split <;> simp

/-- The tree in which the file with the number `id` holds `bytes`, under each of its names. -/
def setFile (tree : Tree) (id : Nat) (bytes : Bytes) (now : Instant) : Tree :=
  { tree with
    entries := tree.entries.map fun e => { e with node := overwriteNode id bytes now e.node }
    distinct := by
      rw [List.map_map]
      exact tree.distinct
    rooted := by
      intro e he
      obtain ⟨e, hm, rfl⟩ := List.mem_map.1 he
      refine (tree.rooted e hm).imp_right ?_
      rintro ⟨d, hd, hl, hn⟩
      exact ⟨_, List.mem_map_of_mem hd, hl, by simp [hn]⟩ }

/-- The number of a file. -/
def fileId? : Node → Option Nat
  | .file f => some f.id
  | _ => none

/-- A number that no file has. -/
def freshId (tree : Tree) : Nat :=
  tree.entries.foldr (fun e n => max ((fileId? e.node).elim 0 (· + 1)) n) 0

/-! ## What the changes do to the view -/

theorem attach_entries {tree : Tree} {dir : Location} {name : Name} {node : Node}
    (hd : tree.get? dir = some .directory) (hn : tree.get? (name :: dir) = none) :
    (tree.attach dir name node).entries = ⟨dir, name, node⟩ :: tree.entries := by
  simp [attach, hd, hn]

theorem get?_attach {tree : Tree} {dir : Location} {name : Name} {node : Node}
    (hd : tree.get? dir = some .directory) (hn : tree.get? (name :: dir) = none)
    (loc : Location) :
    (tree.attach dir name node).get? loc =
      if loc = name :: dir then some node else tree.get? loc := by
  cases loc with
  | nil => simp
  | cons m d =>
    rw [get?_cons, get?_cons, attach_entries hd hn, List.find?_cons]
    by_cases h : name :: dir = m :: d
    · simp [Entry.location, h]
    · simp [Entry.location, h, Ne.symm h]

theorem get?_detach {tree : Tree} {loc : Location} (h : tree.get? loc ≠ some .directory)
    (other : Location) :
    (tree.detach loc).get? other = if other = loc then none else tree.get? other := by
  cases other with
  | nil =>
    have : [] ≠ loc := by
      rintro rfl
      simp at h
    simp [this]
  | cons m d =>
    simp only [get?_cons, detach, h, ne_eq, not_false_eq_true, dite_true, List.find?_filter]
    split
    · rename_i heq
      subst heq
      rw [List.find?_eq_none.2]
      · rfl
      · simp
    · rename_i hne
      congr 2
      funext e
      by_cases he : e.location = m :: d <;> simp_all

theorem get?_setFile (tree : Tree) (id : Nat) (bytes : Bytes) (now : Instant) (loc : Location) :
    (tree.setFile id bytes now).get? loc = (tree.get? loc).map (overwriteNode id bytes now) := by
  cases loc with
  | nil => rfl
  | cons name dir =>
    simp only [get?_cons, setFile, List.find?_map, Option.map_map]
    rfl

theorem fileId?_lt_freshId {tree : Tree} {e : Entry} (he : e ∈ tree.entries) {id : Nat}
    (hid : fileId? e.node = some id) : id < tree.freshId := by
  have bound : ∀ es : List Entry, e ∈ es →
      id < es.foldr (fun e n => max ((fileId? e.node).elim 0 (· + 1)) n) 0 := by
    intro es
    induction es with
    | nil => simp
    | cons x rest ih =>
      intro hm
      simp only [List.foldr_cons]
      rcases List.mem_cons.1 hm with hx | hm
      · simp only [← hx, hid, Option.elim_some]
        omega
      · have := ih hm
        omega
  exact bound _ he

/-- Writing a file of which no name is in the tree changes nothing. -/
theorem setFile_freshId (tree : Tree) (bytes : Bytes) (now : Instant) :
    tree.setFile tree.freshId bytes now = tree := by
  refine ext ?_ rfl
  simp only [setFile]
  conv => rhs; rw [← List.map_id tree.entries]
  refine List.map_congr_left fun e he => ?_
  cases hn : e.node with
  | file f =>
    have : f.id < tree.freshId := fileId?_lt_freshId he (by simp [hn, fileId?])
    simp [overwriteNode, ← hn, Nat.ne_of_lt this]
  | _ => simp [overwriteNode, ← hn]

end Tree
end LineStore
