import LineStore.Proofs.Dictionaries.Escapes
import LineStore.Proofs.Files.Made
import LineStore.Proofs.Files.Spelling

/-!
# A resolved source is in normal form

A name that is not there is kept as it is written, and a `..` behind it takes it off again, from the
missing names as from the real ones. What every step keeps is that **each place on the way** to the
resolved location has been settled (`Charted`): asked about it, the tree says that it is just there,
or that nothing is. So resolving the location once more changes nothing (`resolve?_of_charted`), and
it falls into two parts, an entry that is there and the names below it that are not
(`Charted.exists_parts`).
-/

namespace LineStore

namespace Tree

variable {tree : Tree} {loc base real : Location} {node : Node} {n : Name} {p : Path}

theorem Stands.of_suffix (h : tree.Stands loc node) (hs : base <:+ loc) :
    ∃ other, tree.Stands base other := by
  induction loc generalizing node with
  | nil =>
    rw [List.suffix_nil.1 hs]
    exact ⟨_, .root⟩
  | cons n dir ih =>
    rcases List.suffix_cons_iff.1 hs with rfl | hs
    · exact ⟨node, h⟩
    · exact ih h.up hs

theorem fits_of_suffix (h : loc.Fits) (hs : base <:+ loc) : base.Fits := by
  induction loc with
  | nil =>
    rw [List.suffix_nil.1 hs]
    exact h
  | cons n dir ih =>
    rcases List.suffix_cons_iff.1 hs with rfl | hs
    · exact h
    · exact ih h.up hs

theorem Stands.canonical (h : tree.Stands loc node) (hf : loc.Fits) (hz : ∀ n ∈ loc, 0 ∉ n) :
    tree.canonical (.ofLocation loc) = .ok loc := by
  rw [canonical_ofLocation, hasZero_ofLocation.2 hz, if_neg Bool.false_ne_true, h.outgrows hf,
    if_neg Bool.false_ne_true, h.walk]
  rfl

/-! ## A name that leads nowhere -/

/-- There is a directory and no way on from it by this name: it is free, or a link that dangles. -/
structure Nowhere (tree : Tree) (dir : Location) (n : Name) : Prop where
  directory : tree.get? dir = some .directory
  dangling : ∀ node, tree.get? (n :: dir) = some node → ∃ target, node = .link target
  absent : tree.canonical (.ofLocation (n :: dir)) = .error .absent

theorem nowhere_of_absent (hb : tree.canonical (.ofLocation base) = .ok base)
    (ha : tree.canonical (.ofLocation (n :: base)) = .error .absent) : tree.Nowhere base n := by
  have hs : tree.Stands base .directory := (Real.of_canonical hb).stands_of_absent ha
  have hw := walk_of_canonical_absent ha
  rw [List.reverse_cons, List.map_append, List.map_singleton, hs.leads.walk_append (.inl rfl),
    walk_name, if_neg (by simp)] at hw
  refine ⟨hs.entry, fun node hg => ?_, ha⟩
  rw [hg] at hw
  cases node with
  | link target => exact ⟨target, rfl⟩
  | directory =>
    rw [walk_nil] at hw
    split at hw <;> cases hw
  | file f => split at hw <;> cases hw

/-- What is not there is opened in vain, unless its path is too long to be gone at all. -/
theorem follow_of_absent (ha : tree.canonical (.ofLocation loc) = .error .absent) :
    tree.follow (.ofLocation loc) =
      if Path.limit < loc.display.length then .error .nameTooLong else .error .absent := by
  have he : (Path.ofLocation loc).isEmpty = false := rfl
  have hl : (Path.ofLocation loc).length = loc.display.length := by
    rw [Path.length, Path.toBytes_ofLocation]
  unfold follow locate Path.fault?
  rw [hasZero_of_canonical ha (by simp), he, if_neg Bool.false_ne_true,
    if_neg Bool.false_ne_true, hl]
  by_cases hlong : Path.limit < loc.display.length
  · rw [if_pos hlong, if_pos hlong]
    rfl
  · rw [if_neg hlong, if_neg hlong, Path.steps_ofLocation]
    exact walk_of_canonical_absent ha

theorem outgrows_of_canonical_absent (ha : tree.canonical (.ofLocation loc) = .error .absent) :
    tree.outgrows linkLimit [] (loc.reverse.map .name) = false := by
  have hz : (Path.ofLocation loc).hasZero = false := hasZero_of_canonical ha (by simp)
  rw [canonical_ofLocation, hz, if_neg Bool.false_ne_true] at ha
  split at ha
  · cases ha
  · exact eq_false_of_ne_true ‹_›

theorem canonical_child_of_absent (ha : tree.canonical (.ofLocation loc) = .error .absent)
    (hn : 0 ∉ n) : tree.canonical (.ofLocation (n :: loc)) = .error .absent := by
  have hz : ∀ m ∈ n :: loc, 0 ∉ m :=
    List.forall_mem_cons.2 ⟨hn, hasZero_ofLocation.1 (hasZero_of_canonical ha (by simp))⟩
  have hw := walk_of_canonical_absent ha
  rw [canonical_ofLocation, hasZero_ofLocation.2 hz, if_neg Bool.false_ne_true,
    List.reverse_cons, List.map_append, outgrows_append_of_error _ _ _ hw,
    outgrows_of_canonical_absent ha, if_neg Bool.false_ne_true,
    walk_append_of_error (by simp) _ _ _ hw]
  rfl

/-! ## Half-way, in normal form -/

/-- Each place on the way to the location is just there, or nothing is. -/
structure Charted (tree : Tree) (loc : Location) : Prop where
  spelled : ∀ n ∈ loc, Spellable n
  settled : ∀ dir, dir <:+ loc → tree.canonical (.ofLocation dir) = .ok dir ∨
    tree.canonical (.ofLocation dir) = .error .absent

namespace Charted

theorem up (h : tree.Charted loc) : tree.Charted loc.tail :=
  ⟨fun n hn => h.spelled n (List.mem_of_mem_tail hn),
    fun dir hs => h.settled dir (hs.trans (List.tail_suffix loc))⟩

theorem missing (h : tree.Charted loc) (hn : Spellable n)
    (ha : tree.canonical (.ofLocation (n :: loc)) = .error .absent) : tree.Charted (n :: loc) := by
  constructor
  case spelled => exact List.forall_mem_cons.2 ⟨hn, h.spelled⟩
  case settled =>
    intro dir hs
    rcases List.suffix_cons_iff.1 hs with rfl | hs
    · exact .inr ha
    · exact h.settled dir hs

theorem of_stands (hn : tree.Named) (h : tree.Stands loc node) (hf : loc.Fits) :
    tree.Charted loc := by
  have hnames := hn.of_get? h.entry
  constructor
  case spelled => exact fun n hm => (hnames n hm).1
  case settled =>
    intro dir hs
    obtain ⟨other, hd⟩ := h.of_suffix hs
    exact .inl (hd.canonical (fits_of_suffix hf hs) fun n hm => (hnames n (hs.subset hm)).2)

theorem of_canonical (hn : tree.Named) (h : tree.canonical (.ofLocation loc) = .ok real) :
    tree.Charted real := by
  obtain ⟨node, hw⟩ := walk_of_canonical h
  exact of_stands hn (stands_of_walk _ _ _ .root hw) (fits_of_canonical h)

/-- **What is charted is an entry that is there, and names below it of which the first leads
nowhere.** -/
theorem exists_parts (h : tree.Charted loc) : ∃ tail base, loc = tail ++ base ∧
    tree.canonical (.ofLocation base) = .ok base ∧
      ∀ n, tail.getLast? = some n → tree.Nowhere base n ∧
        tree.canonical (.ofLocation loc) = .error .absent := by
  induction loc with
  | nil => exact ⟨[], [], rfl, rfl, by simp⟩
  | cons n dir ih =>
    rcases h.settled _ (List.suffix_refl _) with hc | ha
    · exact ⟨[], n :: dir, rfl, hc, by simp⟩
    · -- Where the directory is there itself, this name is the first that leads nowhere.
      obtain ⟨tail, base, rfl, hb, hfirst⟩ := ih h.up
      refine ⟨n :: tail, base, rfl, hb, fun m hm => ⟨?_, ha⟩⟩
      cases tail with
      | nil =>
        cases hm
        exact nowhere_of_absent hb ha
      | cons next rest => exact (hfirst m hm).1

end Charted
end Tree

namespace Dictionaries

open LineStore.Tree

variable {tree : Tree} {home loc final : Location} {root : Path} {source text : String}

/-! ## Resolving -/

/-- **Every step of a source keeps the location charted.** -/
theorem charted_of_resolveFrom (hn : tree.Named) : ∀ {steps : List Segment} {loc : Location},
    tree.Charted loc → (∀ n, .name n ∈ steps → Spellable n) →
    resolveFrom tree loc steps = .ok final → tree.Charted final := by
  intro steps
  induction steps with
  | nil =>
    intro loc h _ hr
    cases hr
    exact h
  | cons step rest ih =>
    intro loc h hs hr
    have hrest : ∀ n, .name n ∈ rest → Spellable n := fun n hm => hs n (.tail _ hm)
    cases step with
    | blank | here => exact ih h hrest hr
    | up => exact ih h.up hrest hr
    | name n =>
      rw [resolveFrom] at hr
      split at hr
      · exact ih (.of_canonical hn ‹_›) hrest hr
      · exact ih (h.missing (hs n List.mem_cons_self) ‹_›) hrest hr
      · cases hr

/-- **Charted names lead to where they are written.** -/
theorem resolveFrom_of_charted : ∀ {names dir : List Name}, tree.Charted (names.reverse ++ dir) →
    resolveFrom tree dir (names.map .name) = .ok (names.reverse ++ dir) := by
  intro names
  induction names with
  | nil => exact fun _ => rfl
  | cons n rest ih =>
    intro dir h
    rw [List.reverse_cons, List.append_assoc, List.singleton_append] at h ⊢
    rw [List.map_cons, resolveFrom]
    -- Either way the resolution goes on from the name as it is written.
    rcases h.settled (n :: dir) (List.suffix_append _ _) with hc | ha
    · rw [hc]
      exact ih h
    · rw [ha]
      exact ih h

/-- A charted location inside the root is what its own text is resolved to. -/
theorem resolve?_of_charted (hroot : tree.canonical root = .ok home) (hin : home <:+ loc)
    (h : tree.Charted loc) (ht : Utf8.encode text = loc.display) :
    resolve? tree root text = some loc := by
  have hpath : (Path.ofLocation home).join (.ofString text) = .ofLocation loc := by
    rw [Path.ofString, ht, Path.ofBytes_display h.spelled]
    rfl
  have hres : resolveLenient tree (.ofLocation loc) = .ok loc := by
    have hall : tree.Charted (loc.reverse.reverse ++ []) := by simpa using h
    simpa [resolveLenient, Path.ofLocation] using resolveFrom_of_charted hall
  rw [resolve?, hroot]
  dsimp only
  rw [hpath, hres]
  exact if_pos (List.isSuffixOf_iff_suffix.2 hin)

theorem charted_of_resolve? (hn : tree.Named) (hc : tree.get? tree.cwd = some .directory)
    (h : resolve? tree root source = some loc) :
    ∃ home, tree.canonical root = .ok home ∧ home <:+ loc ∧ tree.Charted loc := by
  unfold resolve? at h
  split at h
  · cases h
  · rename_i home hroot
    split at h
    · cases h
    · rename_i final hr
      split at h
      · rename_i hs
        cases h
        refine ⟨home, hroot, List.isSuffixOf_iff_suffix.1 hs, ?_⟩
        obtain ⟨node, hw⟩ := walk_of_canonical hroot
        have hhome := hn.of_get? (get?_of_walk _ _ _ (get?_start hc root) hw).1
        refine charted_of_resolveFrom hn (.of_stands hn .root .root) ?_ hr
        -- The names are those of the root and those that the source is written with.
        intro n hm
        unfold Path.join at hm
        split at hm
        · exact spellable_of_mem_ofBytes hm
        · rcases List.mem_append.1 hm with hm | hm
          · exact (hhome n (by simpa [Path.ofLocation] using hm)).1
          · exact spellable_of_mem_ofBytes hm
      · cases h

/-! ## The normal form -/

/-- What a resolved location is like. -/
structure NormalForm (tree : Tree) (loc : Location) : Prop where
  /-- Written as text and read again, there are only names in it: no dot and no two dots. -/
  spelled : Path.ofBytes loc.display = .ofLocation loc ∧ ∀ n ∈ loc, n ≠ [0x2E] ∧ n ≠ [0x2E, 0x2E]
  /-- It is an entry that is there, at its own location, and names below it. If there are any, the
  first one leads nowhere, and opening the whole is in vain. -/
  parts : ∃ tail base, loc = tail ++ base ∧ tree.canonical (.ofLocation base) = .ok base ∧
    ∀ n, tail.getLast? = some n → tree.Nowhere base n ∧
      tree.follow (.ofLocation loc) =
        if Path.limit < loc.display.length then .error .nameTooLong else .error .absent

/-- **A resolved source is in normal form**, whatever names of it exist, in whatever order, and
resolving it again by its own text changes nothing. -/
theorem normalForm_of_resolve? (hn : tree.Named) (hc : tree.get? tree.cwd = some .directory)
    (h : resolve? tree root source = some loc) :
    NormalForm tree loc ∧
      ∀ text, Utf8.decode? loc.display = some text → resolve? tree root text = some loc := by
  obtain ⟨home, hroot, hin, hcharted⟩ := charted_of_resolve? hn hc h
  refine ⟨⟨⟨Path.ofBytes_display hcharted.spelled, ?_⟩, ?_⟩, ?_⟩
  · intro n hm
    exact ⟨(hcharted.spelled n hm).dot, (hcharted.spelled n hm).dots⟩
  · obtain ⟨tail, base, hl, hb, hfirst⟩ := hcharted.exists_parts
    refine ⟨tail, base, hl, hb, fun n hm => ?_⟩
    obtain ⟨hnowhere, ha⟩ := hfirst n hm
    exact ⟨hnowhere, follow_of_absent ha⟩
  · intro text ht
    exact resolve?_of_charted hroot hin hcharted (Utf8.encode_of_decode? ht)

/-- A turn back from a name that is not there, and a name below the link that dangles. -/
theorem normalForm_of_resolve?_dangling :
    danglingTree.Named ∧ danglingTree.get? danglingTree.cwd = some .directory ∧
      resolve? danglingTree ⟨true, [.name [0x64]], false⟩ "x/../l/./y" =
        some [[0x79], [0x6C], [0x64]] ∧
      NormalForm danglingTree [[0x79], [0x6C], [0x64]] ∧
      resolve? danglingTree ⟨true, [.name [0x64]], false⟩ "/d/l/y" =
        some [[0x79], [0x6C], [0x64]] := by
  have hn : danglingTree.Named := by
    refine (Named.empty.attach ?_ (by decide)).attach ?_ (by decide)
    · constructor <;> decide
    · constructor <;> decide
  have hr : resolve? danglingTree ⟨true, [.name [0x64]], false⟩ "x/../l/./y" =
      some [[0x79], [0x6C], [0x64]] := by decide +kernel
  have hd : Location.display [[0x79], [0x6C], [0x64]] = [0x2F, 0x64, 0x2F, 0x6C, 0x2F, 0x79] := rfl
  have he : Utf8.encode "/d/l/y" = [0x2F, 0x64, 0x2F, 0x6C, 0x2F, 0x79] := rfl
  have ht : Utf8.decode? (Location.display [[0x79], [0x6C], [0x64]]) = some "/d/l/y" :=
    Utf8.decode?_eq_some_iff.2 (hd.trans he.symm)
  obtain ⟨hform, hagain⟩ := normalForm_of_resolve? hn rfl hr
  exact ⟨hn, rfl, hr, hform, hagain "/d/l/y" ht⟩

/-! ## A long way -/

/-- A way down from a directory, by names that are not there. -/
def wayDown : Nat → String
  | 0 => "/d"
  | k + 1 => wayDown k ++ "/m"

/-- Where the way leads. -/
def depth : Nat → Location
  | 0 => [[0x64]]
  | k + 1 => [0x6D] :: depth k

theorem depth_ne_nil (k : Nat) : depth k ≠ [] := by cases k <;> simp [depth]

theorem encode_wayDown (k : Nat) : Utf8.encode (wayDown k) = (depth k).display := by
  induction k with
  | zero => rfl
  | succ k ih =>
    rw [wayDown, depth, Utf8.encode_append, ih, Location.display_cons, Location.display,
      if_neg (depth_ne_nil k)]
    rfl

theorem length_display_depth (k : Nat) : (depth k).display.length = 2 * k + 2 := by
  induction k with
  | zero => rfl
  | succ k ih =>
    rw [← encode_wayDown] at ih ⊢
    rw [wayDown, Utf8.encode_append, List.length_append, ih]
    rfl

theorem canonical_depth (k : Nat) :
    loneTree.canonical (.ofLocation (depth (k + 1))) = .error .absent := by
  induction k with
  | zero => rfl
  | succ k ih => exact canonical_child_of_absent ih (by decide)

theorem charted_depth (k : Nat) : loneTree.Charted (depth k) := by
  have hn : loneTree.Named := by
    refine (Named.empty.attach ?_ (by decide)).attach ?_ (by decide)
    · constructor <;> decide
    · constructor <;> decide
  induction k with
  | zero => exact .of_canonical hn (show loneTree.canonical (.ofLocation [[0x64]]) = _ from rfl)
  | succ k ih => exact ih.missing (by constructor <;> decide) (canonical_depth k)

theorem resolve?_wayDown (k : Nat) :
    resolve? loneTree ⟨true, [.name [0x64]], false⟩ (wayDown k) = some (depth k) := by
  have hin : [[0x64]] <:+ depth k := by
    induction k with
    | zero => exact List.suffix_refl _
    | succ k ih => exact ih.trans (List.suffix_cons _ _)
  exact resolve?_of_charted rfl hin (charted_depth k) (encode_wayDown k)

theorem follow_depth {k : Nat} (hk : Path.limit < 2 * (k + 1) + 2) :
    loneTree.follow (.ofLocation (depth (k + 1))) = .error .nameTooLong := by
  rw [follow_of_absent (canonical_depth k), length_display_depth, if_pos hk]

theorem fetch_wayDown {k : Nat} (hk : Path.limit < 2 * (k + 1) + 2) :
    Dictionaries.fetch ⟨⟨true, [.name [0x64]], false⟩⟩ "file" (wayDown (k + 1)) loneTree =
      .error (.ofFile .nameTooLong) := by
  have hne : wayDown (k + 1) ≠ "" := by
    intro he
    have hl := length_display_depth (k + 1)
    rw [← encode_wayDown, he] at hl
    cases hl
  rw [fetch, if_neg (by simp [fileType]), if_neg hne, resolve?_wayDown]
  dsimp only
  rw [readText?, readBytes, follow_depth hk]

/-- **What is too long a way to go is not said to be missing**: the source is resolved, its first
name is not there, and still it is for the length of the path that it cannot be opened. -/
theorem opening_fails_wayDown :
    resolve? loneTree ⟨true, [.name [0x64]], false⟩ (wayDown 2100) = some (depth 2100) ∧
      loneTree.canonical (.ofLocation (depth 1)) = .error .absent ∧
      loneTree.follow (.ofLocation (depth 2100)) = .error .nameTooLong ∧
      Dictionaries.fetch ⟨⟨true, [.name [0x64]], false⟩⟩ "file" (wayDown 2100) loneTree =
        .error (.ofFile .nameTooLong) :=
  ⟨resolve?_wayDown 2100, rfl, follow_depth (k := 2099) (by decide),
    fetch_wayDown (k := 2099) (by decide)⟩

end Dictionaries
end LineStore
