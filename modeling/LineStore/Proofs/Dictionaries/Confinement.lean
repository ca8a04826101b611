import LineStore.Proofs.Files.Spelling
import LineStore.Store.Dictionaries

/-!
# What is read lies under the root

A source is resolved by going through it and asking the tree at each name, so half-way there is a
location that may not exist: a real entry, and below it names that were only written down. The
invariant is about that half-way location (`Settled`): either it is an entry and no link, or the
first of the names below the real part **cannot be opened**. A `..` takes a name off and keeps this,
a name that exists leads to a real entry again, and a name that does not is one more to the lost
part.

Reading goes the straight way to the resolved location. Over a lost part it cannot succeed, so a
text that was read comes from a real entry, at the very location that was judged to be under the
root.
-/

namespace LineStore

namespace Tree

variable {tree : Tree} {loc : Location} {node : Node}

/-- A location that is absent is so because the straight way to it is. -/
theorem walk_of_canonical_absent (h : tree.canonical (.ofLocation loc) = .error .absent) :
    (tree.walk .followed linkLimit [] (loc.reverse.map .name)).bind Place.entry =
      .error .absent := by
  unfold canonical at h
  split at h
  · cases h
  · rw [if_neg (by simp [Path.isEmpty, Path.ofLocation]), Path.steps_ofLocation] at h
    split at h
    · cases h
    generalize hw : tree.walk .followed linkLimit (tree.start (.ofLocation loc))
      (loc.reverse.map .name) = answer at h
    rw [show tree.start (.ofLocation loc) = [] from rfl] at hw
    rw [hw]
    cases hb : answer.bind Place.entry with
    | ok entry => rw [hb] at h; cases h
    | error e => rw [hb] at h; cases h; rfl

/-- What can be opened is canonical at its own location, since its path is short enough. -/
theorem canonical_of_follow (h : tree.follow (.ofLocation loc) = .ok (loc, node)) :
    tree.canonical (.ofLocation loc) = .ok loc := by
  obtain ⟨hf, hw⟩ := walk_of_follow h
  rw [Path.steps_ofLocation, show tree.start (.ofLocation loc) = [] from rfl] at hw
  unfold Path.fault? at hf
  split at hf
  · cases hf
  · rename_i hz
    split at hf
    · cases hf
    · rename_i hlong
      have hfits : loc.Fits := by
        rw [Path.length, Path.toBytes_ofLocation] at hlong
        exact Nat.not_lt.1 hlong
      rw [canonical_ofLocation, if_neg hz, (stands_of_walk _ _ _ .root hw).outgrows hfits,
        if_neg Bool.false_ne_true, hw]
      rfl

/-! ## Half-way through a source -/

/-- An entry that is no link, or the root. -/
def Real (tree : Tree) (loc : Location) : Prop :=
  ∃ node, tree.get? loc = some node ∧ ∀ target, node ≠ .link target

theorem Real.nil : tree.Real [] := ⟨.directory, rfl, by simp⟩

theorem Real.tail (h : tree.Real loc) : tree.Real loc.tail := by
  obtain ⟨node, hg, _⟩ := h
  cases loc with
  | nil => exact .nil
  | cons n dir => exact ⟨.directory, tree.get?_dir hg, by simp⟩

theorem Real.of_canonical (h : tree.canonical (.ofLocation loc) = .ok real) : tree.Real real := by
  obtain ⟨node, hw⟩ := walk_of_canonical h
  exact ⟨node, get?_of_walk _ _ _ rfl hw⟩

/-- A location below a name that leads nowhere. -/
inductive Lost (tree : Tree) : Location → Prop
  | first {n : Name} {dir : Location} (hd : tree.Real dir)
      (ha : tree.canonical (.ofLocation (n :: dir)) = .error .absent) : Lost tree (n :: dir)
  | under {n : Name} {dir : Location} (h : Lost tree dir) : Lost tree (n :: dir)

/-- What the steps of a source have led to so far. -/
def Settled (tree : Tree) (loc : Location) : Prop := tree.Real loc ∨ tree.Lost loc

theorem Settled.tail (h : tree.Settled loc) : tree.Settled loc.tail := by
  rcases h with hr | hl
  · exact .inl hr.tail
  · cases hl with
    | first hd _ => exact .inl hd
    | under hl => exact .inr hl

theorem Settled.missing {n : Name} (h : tree.Settled loc)
    (ha : tree.canonical (.ofLocation (n :: loc)) = .error .absent) :
    tree.Settled (n :: loc) := by
  rcases h with hr | hl
  · exact .inr (.first hr ha)
  · exact .inr (.under hl)

/-- **The straight way to a lost location leads nowhere.** -/
theorem Lost.walk (h : tree.Lost loc) :
    (tree.walk .followed linkLimit [] (loc.reverse.map .name)).bind Place.entry =
      .error .absent := by
  induction h with
  | first _ ha => exact walk_of_canonical_absent ha
  | @under n dir _ ih =>
    rw [List.reverse_cons, List.map_append, walk_append_of_error (by simp) _ _ _ ih]
    rfl

/-- A settled location that can be opened is real, and what is opened is what is there. -/
theorem Settled.of_follow {real : Location} (h : tree.Settled loc)
    (hf : tree.follow (.ofLocation loc) = .ok (real, node)) :
    real = loc ∧ tree.get? loc = some node := by
  obtain ⟨_, hw⟩ := walk_of_follow hf
  rw [Path.steps_ofLocation, show tree.start (.ofLocation loc) = [] from rfl] at hw
  rcases h with ⟨node', hg, hn⟩ | hl
  · cases walk_straight hg hn hw
    exact ⟨rfl, hg⟩
  · have := hl.walk
    rw [hw] at this
    cases this

end Tree

namespace Dictionaries

variable {tree : Tree} {loc : Location}

/-- **Every step of a source keeps the location settled.** -/
theorem resolveFrom_settled {final : Location} : ∀ {steps : List Segment} {loc : Location},
    tree.Settled loc → resolveFrom tree loc steps = .ok final → tree.Settled final := by
  intro steps
  induction steps with
  | nil =>
    intro loc h hr
    cases hr
    exact h
  | cons step rest ih =>
    intro loc h hr
    cases step with
    | blank | here => exact ih h hr
    | up => exact ih h.tail hr
    | name n =>
      rw [resolveFrom] at hr
      split at hr
      · rename_i real hc
        exact ih (.inl (.of_canonical hc)) hr
      · exact ih (h.missing ‹_›) hr
      · cases hr

theorem settled_of_resolve? {root : Path} {source : String}
    (h : resolve? tree root source = some loc) :
    ∃ home, tree.canonical root = .ok home ∧ home <:+ loc ∧ tree.Settled loc := by
  unfold resolve? at h
  split at h
  · cases h
  · rename_i home hc
    split at h
    · cases h
    · rename_i final hr
      split at h
      · rename_i hs
        cases h
        exact ⟨home, hc, List.isSuffixOf_iff_suffix.1 hs, resolveFrom_settled (.inl .nil) hr⟩
      · cases h

theorem follow_of_readText? {p : Path} {text : String} (h : tree.readText? p = .ok (some text)) :
    ∃ real file, tree.follow p = .ok (real, .file file) ∧ file.bytes = Utf8.encode text := by
  unfold Tree.readText? Tree.readBytes at h
  cases hf : tree.follow p with
  | error e => rw [hf] at h; cases e <;> cases h
  | ok found =>
    obtain ⟨real, node⟩ := found
    rw [hf] at h
    cases node with
    | directory | link _ => cases h
    | file file =>
      dsimp only at h
      split at h
      · rename_i hd
        cases h
        exact ⟨real, file, rfl, Utf8.decode?_eq_some_iff.1 hd⟩
      · cases h

/-- A text is the content of a regular file, whose location, its own canonical one, lies at or below
the canonical location of the root. -/
def HasFile (store : Dictionaries) (tree : Tree) (text : String) : Prop :=
  ∃ home loc file, tree.canonical store.root = .ok home ∧
    tree.get? loc = some (.file file) ∧ tree.canonical (.ofLocation loc) = .ok loc ∧
    home <:+ loc ∧ file.bytes = Utf8.encode text

/-- **Dictionary reads are confined to the root.** A text that is handed out is in a file there. -/
theorem fetch_confined (store : Dictionaries) (source text : String) (tree : Tree)
    (h : store.fetch "file" source tree = .ok text) : store.HasFile tree text := by
  unfold fetch at h
  rw [if_neg (by simp [fileType])] at h
  split at h
  · cases h
  · split at h
    · cases h
    · rename_i loc hr
      obtain ⟨home, hc, hs, settled⟩ := settled_of_resolve? hr
      split at h
      · rename_i ht
        cases h
        obtain ⟨real, file, hf, hb⟩ := follow_of_readText? ht
        obtain ⟨rfl, hg⟩ := settled.of_follow hf
        exact ⟨home, real, file, hc, hg, Tree.canonical_of_follow hf, hs, hb⟩
      · cases h
      · cases h

/-- A directory with a file in it and a link to the file. -/
def linkedTree : Tree :=
  ((Tree.empty.attach [] [0x64] .directory).attach [[0x64]] [0x77]
    (.file ⟨0, [0x61], 0⟩)).attach [[0x64]] [0x6C] (.link [0x77])

/-- A source that turns back from what does not exist, and then goes through the link. -/
theorem fetch_confined_linked :
    Dictionaries.fetch ⟨⟨true, [.name [0x64]], false⟩⟩ "file" "x/../l" linkedTree = .ok "a" ∧
      HasFile ⟨⟨true, [.name [0x64]], false⟩⟩ linkedTree "a" := by
  have h : Dictionaries.fetch ⟨⟨true, [.name [0x64]], false⟩⟩ "file" "x/../l" linkedTree =
      .ok "a" := rfl
  exact ⟨h, fetch_confined _ _ _ _ h⟩

end Dictionaries
end LineStore
