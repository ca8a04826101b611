import LineStore.Proofs.Documents.Listed
import LineStore.Proofs.Documents.Sorting
import LineStore.Proofs.Files.Reordered

/-!
# What a listing shows

A listing looks at each entry of the root, whatever the root holds. An entry is left out for its
name, for being no file once its links are followed, or for having gone; only a look that fails in
another way makes the listing fail. `listed?_eq_some_iff` and `listed?_eq_error_iff` say this of one
entry, and collecting carries it over to all of them.

Each document that is found comes with its time and its name, and no two of them with one name. So
the sorted list is settled by what was found, and does not show in which order the directory had it.
-/

namespace LineStore

/-! ## Collecting, once more -/

section

variable {α β ε : Type} {f : α → Except ε (Option β)} {xs : List α}

theorem exists_of_filterMapM_error {e : ε} (h : xs.filterMapM f = .error e) :
    ∃ x ∈ xs, f x = .error e := by
  induction xs with
  | nil => cases h
  | cons x rest ih =>
    rw [List.filterMapM_cons] at h
    cases hx : f x with
    | error cause =>
      rw [hx] at h
      cases h
      exact ⟨x, List.mem_cons_self, hx⟩
    | ok found =>
      rw [hx] at h
      have hrest : rest.filterMapM f = .error e := by
        cases hr : rest.filterMapM f with
        | error cause =>
          rw [hr] at h
          cases found <;> exact h
        | ok ys =>
          rw [hr] at h
          cases found <;> cases h
      obtain ⟨y, hy, he⟩ := ih hrest
      exact ⟨y, List.mem_cons_of_mem _ hy, he⟩

/-- A collection that succeeds has looked at everything. -/
theorem exists_of_filterMapM_ok {ys : List β} (h : xs.filterMapM f = .ok ys) :
    ∀ x ∈ xs, ∃ found, f x = .ok found := by
  induction xs generalizing ys with
  | nil =>
    intro x hx
    cases hx
  | cons x rest ih =>
    rw [List.filterMapM_cons] at h
    cases hx : f x with
    | error cause =>
      rw [hx] at h
      cases h
    | ok found =>
      rw [hx] at h
      cases hr : rest.filterMapM f with
      | error cause =>
        rw [hr] at h
        cases found <;> cases h
      | ok ys =>
        intro y hy
        rcases List.mem_cons.1 hy with rfl | hy
        · exact ⟨found, hx⟩
        · exact ih hr y hy

end

namespace Documents

variable {store : Documents} {tree other : Tree} {home : Location} {names : List Name} {n : Name}
  {shown : String} {time : Instant} {found : List (Instant × String)} {entries : List ListEntry}

/-! ## One entry -/

/-- The root has an entry that is called like the document shown as `shown`, and is not hidden. -/
def Offers (store : Documents) (tree : Tree) (shown : String) : Prop :=
  ∃ home names, tree.readDirectory store.root = .ok (home, names) ∧
    Utf8.encode (shown ++ extension) ∈ names ∧ (shown ++ extension).toList.head? ≠ some '.'

/-- Where links end, the entry is a regular file, and was written at `time`. -/
def Written (store : Documents) (tree : Tree) (shown : String) (time : Instant) : Prop :=
  ∃ loc file, tree.follow (store.root.child (Utf8.encode (shown ++ extension))) =
    .ok (loc, .file file) ∧ file.modified = time

/-- What keeps the root from being listed: it cannot be read, or an entry that is called like a
document cannot be looked at, though it has not gone. -/
inductive Unlisted (store : Documents) (tree : Tree) : FileError → Prop
  | root {e : FileError} (hr : tree.readDirectory store.root = .error e) : Unlisted store tree e
  | entry {e : FileError} {shown : String} (ho : store.Offers tree shown)
      (hf : tree.follow (store.root.child (Utf8.encode (shown ++ extension))) = .error e)
      (he : e ≠ .absent) : Unlisted store tree e

theorem listed?_eq_some_iff :
    store.listed? tree n = .ok (some (time, shown)) ↔
      listedName? n = some shown ∧ store.Written tree shown time := by
  unfold listed?
  cases hn : listedName? n with
  | none => simp
  | some name =>
    have hfile : n = Utf8.encode (name ++ extension) := (listedName?_eq_some_iff.1 hn).1
    dsimp only
    rw [hfile]
    constructor
    · intro h
      split at h
      · rename_i loc file hf
        cases h
        exact ⟨rfl, loc, file, hf, rfl⟩
      · cases h
      · cases h
      · cases h
    · rintro ⟨hs, loc, file, hf, rfl⟩
      cases hs
      rw [hf]

theorem listed?_eq_error_iff {e : FileError} :
    store.listed? tree n = .error e ↔ ∃ shown, listedName? n = some shown ∧ e ≠ .absent ∧
      tree.follow (store.root.child (Utf8.encode (shown ++ extension))) = .error e := by
  unfold listed?
  cases hn : listedName? n with
  | none => simp
  | some name =>
    have hfile : n = Utf8.encode (name ++ extension) := (listedName?_eq_some_iff.1 hn).1
    dsimp only
    rw [hfile]
    constructor
    · intro h
      split at h
      · cases h
      · cases h
      · cases h
      · rename_i cause hne hf
        cases h
        exact ⟨name, rfl, hne, hf⟩
    · rintro ⟨shown, hs, hne, hf⟩
      cases hs
      rw [hf]
      cases e with
      | absent => exact absurd rfl hne
      | _ => rfl

theorem offers_iff (hr : tree.readDirectory store.root = .ok (home, names)) :
    store.Offers tree shown ↔ ∃ n ∈ names, listedName? n = some shown := by
  constructor
  · rintro ⟨_, _, hr', hn, hh⟩
    rw [hr] at hr'
    cases hr'
    exact ⟨_, hn, listedName?_eq_some_iff.2 ⟨rfl, hh⟩⟩
  · rintro ⟨n, hn, hs⟩
    obtain ⟨rfl, hh⟩ := listedName?_eq_some_iff.1 hs
    exact ⟨home, names, hr, hn, hh⟩

/-! ## All of them -/

/-- A listing that succeeds has read the root and collected from it. -/
theorem exists_found_of_list (h : store.list tree = .ok entries) :
    ∃ home names found, tree.readDirectory store.root = .ok (home, names) ∧
      names.filterMapM (store.listed? tree) = .ok found ∧ entries = Listing.ofFound found := by
  unfold list at h
  split at h
  · cases h
  · rename_i home names hr
    split at h
    · cases h
    · rename_i found hf
      cases h
      exact ⟨home, names, found, hr, hf, rfl⟩

/-- **A listing fails for one of the reasons that there are.** -/
theorem unlisted_of_list {e : StoreError} (h : store.list tree = .error e) :
    ∃ cause, e = .ofFile cause ∧ store.Unlisted tree cause := by
  unfold list at h
  split at h
  · rename_i cause hr
    cases h
    exact ⟨cause, rfl, .root hr⟩
  · rename_i home names hr
    split at h
    · rename_i cause hf
      cases h
      obtain ⟨n, hn, he⟩ := exists_of_filterMapM_error hf
      obtain ⟨shown, hs, hne, hf⟩ := listed?_eq_error_iff.1 he
      exact ⟨cause, rfl, .entry ((offers_iff hr).2 ⟨n, hn, hs⟩) hf hne⟩
    · cases h

/-- A listing that succeeds had no reason to fail. -/
theorem not_unlisted_of_list (h : store.list tree = .ok entries) (cause : FileError) :
    ¬ store.Unlisted tree cause := by
  obtain ⟨home, names, found, hr, hf, -⟩ := exists_found_of_list h
  intro hu
  cases hu with
  | root hr' =>
    rw [hr] at hr'
    cases hr'
  | entry ho hfollow hne =>
    obtain ⟨n, hn, hs⟩ := (offers_iff hr).1 ho
    obtain ⟨seen, hl⟩ := exists_of_filterMapM_ok hf n hn
    rw [listed?_eq_error_iff.2 ⟨_, hs, hne, hfollow⟩] at hl
    cases hl

/-- What a look shows of an entry, if it shows anything. -/
def seen? (store : Documents) (tree : Tree) (n : Name) : Option (Instant × String) :=
  (store.listed? tree n).toOption.join

theorem found_eq (hf : names.filterMapM (store.listed? tree) = .ok found) :
    found = names.filterMap (store.seen? tree) := by
  have hl : ∀ n ∈ names, store.listed? tree n = .ok (store.seen? tree n) := by
    intro n hn
    obtain ⟨seen, hs⟩ := exists_of_filterMapM_ok hf n hn
    simp [seen?, hs, Except.toOption]
  rw [filterMapM_eq_ok hl] at hf
  exact (Except.ok.inj hf).symm

theorem seen?_eq_some_iff :
    store.seen? tree n = some (time, shown) ↔
      listedName? n = some shown ∧ store.Written tree shown time := by
  rw [← listed?_eq_some_iff, seen?]
  cases hl : store.listed? tree n with
  | error e => simp [Except.toOption]
  | ok seen => simp [Except.toOption]

theorem mem_found_iff (hr : tree.readDirectory store.root = .ok (home, names))
    (hf : names.filterMapM (store.listed? tree) = .ok found) :
    (time, shown) ∈ found ↔ store.Offers tree shown ∧ store.Written tree shown time := by
  rw [found_eq hf, List.mem_filterMap, offers_iff hr]
  simp only [seen?_eq_some_iff]
  constructor
  · rintro ⟨n, hn, hs, hw⟩
    exact ⟨⟨n, hn, hs⟩, hw⟩
  · rintro ⟨⟨n, hn, hs⟩, hw⟩
    exact ⟨n, hn, hs, hw⟩

theorem nodup_of_readDirectory {p : Path} (hr : tree.readDirectory p = .ok (home, names)) :
    names.Nodup := by
  unfold Tree.readDirectory at hr
  split at hr
  · cases hr
    exact tree.children_nodup _
  · cases hr
  · cases hr

/-- **No two documents are found under one name**, since a name stands for one entry. -/
theorem pairwise_found (hr : tree.readDirectory store.root = .ok (home, names))
    (hf : names.filterMapM (store.listed? tree) = .ok found) :
    found.Pairwise fun a b => a.2 ≠ b.2 := by
  rw [found_eq hf]
  apply List.pairwise_filterMap.2
  apply (nodup_of_readDirectory hr).imp
  rintro n m hne ⟨s, name⟩ hn ⟨t, other⟩ hm
  intro he
  obtain ⟨hn, -⟩ := seen?_eq_some_iff.1 hn
  obtain ⟨hm, -⟩ := seen?_eq_some_iff.1 hm
  have hfile : n = Utf8.encode (name ++ extension) := (listedName?_eq_some_iff.1 hn).1
  have hother : m = Utf8.encode (other ++ extension) := (listedName?_eq_some_iff.1 hm).1
  have hnames : name = other := he
  exact hne (hfile.trans (hnames ▸ hother.symm))

/-! ## The whole listing -/

/-- What a listing has to be like to show just the documents that are there. -/
structure ListsExactly (store : Documents) (tree : Tree) (entries : List ListEntry) : Prop where
  /-- Whatever is called like a document and leads to a file is shown, and nothing else. -/
  shown : ∀ shown, shown ∈ entries.map (·.name) ↔
    store.Offers tree shown ∧ ∃ time, store.Written tree shown time
  once : (entries.map (·.name)).Nodup
  modified : ∀ e ∈ entries, ∃ time, store.Written tree e.name time ∧ e.modified = epochMillis time
  /-- The newest come first, by the full time, and at one time the smallest names. -/
  sorted : entries.Pairwise fun a b => ∃ s t, store.Written tree a.name s ∧
    store.Written tree b.name t ∧ (t < s ∨ s = t ∧ Utf8.encode a.name < Utf8.encode b.name)

theorem listsExactly_of_list (h : store.list tree = .ok entries) :
    store.ListsExactly tree entries := by
  obtain ⟨home, names, found, hr, hf, rfl⟩ := exists_found_of_list h
  have hm : ∀ time shown, (time, shown) ∈ Listing.sort found ↔
      store.Offers tree shown ∧ store.Written tree shown time := by
    intro time shown
    rw [Listing.sort, List.mem_mergeSort, mem_found_iff hr hf]
  have hne : (Listing.sort found).Pairwise fun a b => a.2 ≠ b.2 :=
    (List.mergeSort_perm found _).symm.pairwise (pairwise_found hr hf) fun hab => Ne.symm hab
  constructor
  case shown =>
    intro shown
    simp only [Listing.ofFound, List.map_map, List.mem_map]
    constructor
    · rintro ⟨⟨time, name⟩, hmem, rfl⟩
      obtain ⟨ho, hw⟩ := (hm time name).1 hmem
      exact ⟨ho, time, hw⟩
    · rintro ⟨ho, time, hw⟩
      exact ⟨(time, shown), (hm time shown).2 ⟨ho, hw⟩, rfl⟩
  case once =>
    rw [Listing.ofFound, List.map_map]
    exact List.pairwise_map.2 hne
  case modified =>
    intro e he
    obtain ⟨⟨time, name⟩, hmem, rfl⟩ := List.mem_map.1 he
    exact ⟨time, ((hm time name).1 hmem).2, rfl⟩
  case sorted =>
    apply List.pairwise_map.2
    apply ((Listing.pairwise_sort found).and hne).imp_of_mem
    rintro ⟨s, name⟩ ⟨t, other⟩ ha hb ⟨hp, hne⟩
    exact ⟨s, t, ((hm s name).1 ha).2, ((hm t other).1 hb).2, Listing.before_of_precedes hp hne⟩

/-! ## The order of the directory -/

theorem listed?_reordered (h : tree.Reordered other) :
    store.listed? tree = store.listed? other := by
  funext n
  unfold listed?
  rw [h.follow_eq]

theorem list_reordered (h : tree.Reordered other) (hl : store.list tree = .ok entries) :
    store.list other = .ok entries := by
  obtain ⟨home, names, found, hr, hf, rfl⟩ := exists_found_of_list hl
  obtain ⟨others, hr', hp⟩ := h.readDirectory_ok hr
  -- Each entry is looked at with the same result, and only the order of the results is another one.
  have hall : ∀ n ∈ others, store.listed? other n = .ok (store.seen? tree n) := by
    intro n hn
    obtain ⟨seen, hs⟩ := exists_of_filterMapM_ok hf n (hp.mem_iff.2 hn)
    simp [← listed?_reordered h, seen?, hs, Except.toOption]
  have hfound : found.Perm (others.filterMap (store.seen? tree)) := by
    rw [found_eq hf]
    exact hp.filterMap _
  rw [list, hr']
  dsimp only
  rw [filterMapM_eq_ok hall]
  dsimp only
  rw [Listing.ofFound_congr hfound]

theorem Unlisted.reordered {cause : FileError} (h : tree.Reordered other)
    (hu : store.Unlisted tree cause) : store.Unlisted other cause := by
  cases hu with
  | root hr => exact .root (h.readDirectory_error hr)
  | entry ho hf he =>
    obtain ⟨home, names, hr, hn, hh⟩ := ho
    obtain ⟨others, hr', hp⟩ := h.readDirectory_ok hr
    exact .entry ⟨home, others, hr', hp.mem_iff.1 hn, hh⟩ (h.follow_eq _ ▸ hf) he

/-- **A listing is complete and exact, and the order of the directory does not show.** It fails only
if the root cannot be read, or an entry that is called like a document cannot be looked at though it
has not gone; otherwise it shows the files with such names, each once, from the newest to the
oldest. With the entries in another order there are the same reasons to fail, or the same listing. -/
theorem lists_exactly (store : Documents) (tree : Tree) :
    (∀ e, store.list tree = .error e →
      ∃ cause, e = .ofFile cause ∧ store.Unlisted tree cause) ∧
    (∀ entries, store.list tree = .ok entries →
      (∀ cause, ¬ store.Unlisted tree cause) ∧ store.ListsExactly tree entries) ∧
    ∀ other, tree.Reordered other →
      (∀ cause, store.Unlisted tree cause ↔ store.Unlisted other cause) ∧
        ∀ entries, store.list tree = .ok entries ↔ store.list other = .ok entries := by
  refine ⟨fun e => unlisted_of_list, ?_, ?_⟩
  · intro entries hl
    exact ⟨not_unlisted_of_list hl, listsExactly_of_list hl⟩
  · intro other h
    constructor
    · intro cause
      exact ⟨Unlisted.reordered h, Unlisted.reordered h.symm⟩
    · intro entries
      exact ⟨list_reordered h, list_reordered h.symm⟩

/-- A root with a file, a link to it, a directory and a dangling link that are called like documents,
and files that are not. -/
def motleyTree : Tree :=
  ((((((Tree.empty.attach [] [0x64] .directory).attach
    [[0x64]] (Utf8.encode "a.txt") (.link (Utf8.encode "b.txt"))).attach
    [[0x64]] (Utf8.encode "b.txt") (.file ⟨0, [], 5999999⟩)).attach
    [[0x64]] (Utf8.encode "c.txt") .directory).attach
    [[0x64]] (Utf8.encode "e.txt") (.link (Utf8.encode "f.txt"))).attach
    [[0x64]] (Utf8.encode ".g.txt") (.file ⟨1, [], 0⟩)).attach
    [[0x64]] [0xFF, 0x2E, 0x74, 0x78, 0x74] (.file ⟨2, [], 0⟩)

/-- The file and its link are listed, with one time, so by their names. -/
theorem lists_exactly_motley :
    list ⟨⟨true, [.name [0x64]], false⟩⟩ motleyTree = .ok [⟨"a", 5⟩, ⟨"b", 5⟩] ∧
      ListsExactly ⟨⟨true, [.name [0x64]], false⟩⟩ motleyTree [⟨"a", 5⟩, ⟨"b", 5⟩] := by
  have hl : list ⟨⟨true, [.name [0x64]], false⟩⟩ motleyTree =
      .ok (Listing.ofFound [(5999999, "b"), (5999999, "a")]) := rfl
  have hs : Listing.sort [(5999999, "b"), (5999999, "a")] = [(5999999, "a"), (5999999, "b")] :=
    Listing.sort_eq_of_perm (.swap _ _ _) (by decide +kernel)
  rw [Listing.ofFound, hs] at hl
  exact ⟨hl, ((lists_exactly _ _).2.1 _ hl).2⟩

end Documents
end LineStore
