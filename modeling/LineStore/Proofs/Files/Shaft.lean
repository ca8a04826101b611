import LineStore.Proofs.Files.Opened
import LineStore.Proofs.Files.Standing

/-!
# A way down and nothing beside it

`shaft` is the tree of the directories on the way to a location. It is there for statements about
directories at a great depth: what is at a location follows from the location alone
(`get?_shaft`), so that nothing has to be looked up in a tree of that size. The straight path to its
end opens it (`opens_shaft`), costs what its names cost (`length_child_ofLocation`), and making it
changes nothing (`makeDirectories_shaft`).
-/

namespace LineStore

theorem Path.ofLocation_cons (n : Name) (dir : Location) :
    ofLocation (n :: dir) = (ofLocation dir).child n := by
  simp [ofLocation, child]

theorem Path.trim_ofLocation (loc : Location) : (ofLocation loc).trim = ofLocation loc := by
  unfold trim ofLocation
  cases loc with
  | nil => rfl
  | cons n dir => simp [Segment.stays]

theorem Path.length_child_ofLocation (loc : Location) (n : Name) :
    ((ofLocation loc).child n).length = 1 + (loc.flatten.length + loc.length) + n.length := by
  have hl : (loc.reverse.flatMap fun n => n ++ [Segment.separator]).length =
      loc.flatten.length + loc.length := by
    induction loc with
    | nil => rfl
    | cons m dir ih =>
      rw [List.reverse_cons, List.flatMap_append, List.length_append, ih, List.flatten_cons,
        List.length_append, List.length_cons]
      simp
      omega
  rw [length_child_eq, ← hl, ofLocation, List.flatMap_map]
  rfl

namespace Tree

variable {loc dir other : Location} {node : Node} {n : Name}

/-- The directories on the way to a location. -/
def shaft : Location → Tree
  | [] => .empty
  | n :: dir => (shaft dir).attach dir n .directory

theorem get?_shaft (loc other : Location) :
    (shaft loc).get? other = if other <:+ loc then some .directory else none := by
  induction loc generalizing other with
  | nil =>
    cases other with
    | nil => rfl
    | cons n dir => rw [if_neg (by simp)]; rfl
  | cons n dir ih =>
    have hd : (shaft dir).get? dir = some .directory := by rw [ih, if_pos (List.suffix_refl _)]
    have hfree : (shaft dir).get? (n :: dir) = none := by
      rw [ih, if_neg]
      intro hs
      have hle := hs.length_le
      rw [List.length_cons] at hle
      omega
    rw [shaft, get?_attach hd hfree, ih]
    simp only [List.suffix_cons_iff]
    by_cases he : other = n :: dir
    · rw [if_pos he, if_pos (.inl he)]
    · rw [if_neg he]
      simp only [he, false_or]

theorem unlinked_shaft (loc : Location) (target : Bytes) :
    (shaft loc).get? other ≠ some (.link target) := by
  rw [get?_shaft]
  split <;> simp

/-- Whatever has a name in a shaft is on the way down. -/
theorem get?_shaft_of_not_mem (h : n ∉ loc) (dir : Location) :
    (shaft loc).get? (n :: dir) = none := by
  rw [get?_shaft, if_neg]
  exact fun hs => h (hs.subset List.mem_cons_self)

theorem stands_shaft (hn : ∀ n ∈ loc, n.length ≤ nameLimit) (hs : dir <:+ loc) :
    (shaft loc).Stands dir .directory where
  entry := by rw [get?_shaft, if_pos hs]
  plain := by simp
  short n hm := hn n (hs.subset hm)

theorem opens_shaft (hn : ∀ n ∈ loc, n.length ≤ nameLimit) (hs : dir <:+ loc) :
    (shaft loc).Opens (.ofLocation dir) dir :=
  ⟨⟨linkLimit, (stands_shaft hn hs).leads⟩, (stands_shaft hn hs).entry⟩

/-- A directory that is there is made without any effect. -/
theorem makeDirectories_shaft (hn : ∀ n ∈ loc, n.length ≤ nameLimit) (hs : n :: dir <:+ loc)
    (hr : (Path.ofLocation dir).refusal? n = none) :
    (shaft loc).makeDirectories (.ofLocation (n :: dir)) = (.ok (), shaft loc) := by
  have hpath := Path.ofLocation_cons n dir
  have hopens := opens_shaft hn ((List.suffix_cons n dir).trans hs)
  have hfollow : (shaft loc).follow (.ofLocation (n :: dir)) = .ok (n :: dir, .directory) :=
    (opens_shaft hn hs).follow (hpath ▸ (Path.refusal?_eq_none_iff.1 hr).1)
  have hmake : (shaft loc).makeDirectory (.ofLocation (n :: dir)) = .error .occupied := by
    rw [makeDirectory, hpath, hopens.freeName_child, hr, (opens_shaft hn hs).directory]
    rfl
  rw [makeDirectories, if_neg (by simp [Path.isEmpty, Path.ofLocation]), Path.ancestors, makeFirst,
    hmake]
  simp [isDirectory, hfollow]

end Tree
end LineStore
