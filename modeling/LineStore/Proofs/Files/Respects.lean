import LineStore.Proofs.Files.Bystanders
import LineStore.Proofs.Files.Unseen

/-!
# Writers that respect each other

Two writers are at work in one directory, each with a hidden file of its own and both with one
target. `Respects` is what the one that goes by the hidden name `m` needs of a step of the other:
what stands at the target stays, and the hidden file stays as it is, with no name more than it had.
Making a hidden file, filling it, giving it the target's name and removing it are such steps, as long
as the file has no second name that is in the way. None of them moves the directory.
-/

namespace LineStore

namespace Tree

variable {tree after : Tree} {root : Path} {home loc : Location} {a m n : Name} {file : File}
  {id : Nat} {bytes : Bytes} {now : Instant}

/-- What stands under the name `n` stays, and so does the file called `m`, if there is one, with no
more names than it has. -/
structure Respects (tree : Tree) (home : Location) (n m : Name) (after : Tree) : Prop where
  kept : ∀ node, tree.get? (n :: home) = some node → after.get? (n :: home) = some node
  hidden : after.get? (m :: home) = tree.get? (m :: home)
  names : ∀ file loc other, tree.get? (m :: home) = some (.file file) →
    after.get? loc = some (.file other) → other.id = file.id →
      ∃ old, tree.get? loc = some (.file old) ∧ old.id = file.id

theorem Respects.refl (tree : Tree) (home : Location) (n m : Name) :
    tree.Respects home n m tree where
  kept _ h := h
  hidden := rfl
  names _ _ other _ ho hid := ⟨other, ho, hid⟩

theorem Respects.attach (hd : tree.get? home = some .directory)
    (hv : tree.get? (a :: home) = none) (ha : m ≠ a)
    (hid : ∀ other, tree.get? (m :: home) = some (.file other) → file.id ≠ other.id) :
    tree.Respects home n m (tree.attach home a (.file file)) := by
  have hg : ∀ loc, (tree.attach home a (.file file)).get? loc =
      if loc = a :: home then some (.file file) else tree.get? loc := get?_attach hd hv
  constructor
  case kept => exact fun node h => attach_keeps h
  case hidden => rw [hg, if_neg (by simp [ha])]
  case names =>
    intro other loc new ho hn he
    rw [hg] at hn
    split at hn
    · cases hn
      exact absurd he (hid other ho)
    · exact ⟨new, hn, he⟩

theorem exists_of_overwriteNode {old : Node} (h : overwriteNode id bytes now old = .file file) :
    ∃ other, old = .file other ∧ other.id = file.id := by
  cases old with
  | directory | link _ => cases h
  | file other =>
    refine ⟨other, rfl, ?_⟩
    rw [overwriteNode] at h
    split at h
    · rename_i hid
      cases h
      exact hid
    · cases h
      rfl

/-- Writing a file gives no name to any. -/
theorem exists_of_get?_setFile (h : (tree.setFile id bytes now).get? loc = some (.file file)) :
    ∃ old, tree.get? loc = some (.file old) ∧ old.id = file.id := by
  rw [get?_setFile, Option.map_eq_some_iff] at h
  obtain ⟨node, hg, ho⟩ := h
  obtain ⟨old, rfl, hid⟩ := exists_of_overwriteNode ho
  exact ⟨old, hg, hid⟩

theorem Respects.setFile (hid : ∀ loc other, tree.get? loc = some (.file other) → other.id = id →
    loc = a :: home) (hn : n ≠ a) (hm : m ≠ a) :
    tree.Respects home n m (tree.setFile id bytes now) := by
  have keeps : ∀ k node, k ≠ a → tree.get? (k :: home) = some node →
      (tree.setFile id bytes now).get? (k :: home) = some node := by
    intro k node hk h
    apply setFile_keeps _ h
    intro other ho he
    exact hk (List.cons.inj (hid _ other ho he)).1
  constructor
  case kept => exact fun node h => keeps n node hn h
  case hidden =>
    cases hg : tree.get? (m :: home) with
    | none => rw [get?_setFile, hg, Option.map_none]
    | some node => exact keeps m node hm hg
  case names =>
    intro other loc new _ hnew he
    obtain ⟨old, hg, hold⟩ := exists_of_get?_setFile hnew
    exact ⟨old, hg, hold.trans he⟩

theorem Respects.detach (hf : tree.get? (a :: home) ≠ some .directory) (hn : n ≠ a) (hm : m ≠ a) :
    tree.Respects home n m (tree.detach (a :: home)) := by
  have hg := get?_detach hf
  constructor
  case kept =>
    intro node h
    rw [hg, if_neg (by simp [hn])]
    exact h
  case hidden => rw [hg, if_neg (by simp [hm])]
  case names =>
    intro other loc new _ hnew he
    rw [hg] at hnew
    split at hnew
    · cases hnew
    · exact ⟨new, hnew, he⟩

/-! ## What is respected -/

theorem Respects.lone (h : tree.Respects home n m after) (hl : tree.Lone (m :: home)) :
    after.Lone (m :: home) := by
  intro node hg
  rw [h.hidden] at hg
  obtain ⟨file, rfl, honly⟩ := hl node hg
  refine ⟨file, rfl, ?_⟩
  intro other f hf hid
  obtain ⟨old, hold, ho⟩ := h.names file other f hg hf hid
  exact honly other old hold ho

/-- The location holds a file with this number and these bytes, and the file has no other name. -/
structure Holding (tree : Tree) (loc : Location) (id : Nat) (bytes : Bytes) : Prop where
  file : ∃ time, tree.get? loc = some (.file ⟨id, bytes, time⟩)
  only : ∀ other f, tree.get? other = some (.file f) → f.id = id → other = loc

theorem Respects.holding (h : tree.Respects home n m after)
    (hh : tree.Holding (m :: home) id bytes) : after.Holding (m :: home) id bytes := by
  obtain ⟨time, hg⟩ := hh.file
  constructor
  case file => exact ⟨time, by rw [h.hidden]; exact hg⟩
  case only =>
    intro other f hf hid
    obtain ⟨old, hold, ho⟩ := h.names _ other f hg hf hid
    exact hh.only other old hold ho

theorem Holding.lone (h : tree.Holding loc id bytes) : tree.Lone loc := by
  intro node hg
  obtain ⟨time, hf⟩ := h.file
  rw [hf] at hg
  cases hg
  exact ⟨_, rfl, h.only⟩

theorem Holding.attach (hd : tree.get? home = some .directory)
    (hv : tree.get? (m :: home) = none) :
    (tree.attach home m (.file ⟨tree.freshId, [], now⟩)).Holding (m :: home) tree.freshId [] := by
  have hg : ∀ loc, (tree.attach home m (.file ⟨tree.freshId, [], now⟩)).get? loc =
      if loc = m :: home then some (.file ⟨tree.freshId, [], now⟩) else tree.get? loc :=
    get?_attach hd hv
  constructor
  case file => exact ⟨now, by rw [hg, if_pos rfl]⟩
  case only =>
    intro other f hf hid
    rw [hg] at hf
    split at hf
    · assumption
    · exact absurd hid.symm (AtomicWrite.freshId_ne hf)

theorem Holding.setFile (hg : tree.get? loc = some (.file file))
    (ho : ∀ other f, tree.get? other = some (.file f) → f.id = file.id → other = loc) :
    (tree.setFile file.id bytes now).Holding loc file.id bytes := by
  constructor
  case file =>
    refine ⟨now, ?_⟩
    rw [get?_setFile, hg, Option.map_some, overwriteNode, if_pos rfl]
  case only =>
    intro other f hf hid
    obtain ⟨old, hold, he⟩ := exists_of_get?_setFile hf
    exact ho other old hold (he.trans hid)

/-- The bytes of a file with one name are those that stand there. -/
theorem Holding.bytesOf (h : tree.Holding loc id bytes) : tree.bytesOf id = bytes := by
  obtain ⟨time, hg⟩ := h.file
  have found : ∀ e ∈ tree.entries, ∀ f, e.node = .file f → f.id = id → f.bytes = bytes := by
    intro e he f hf hid
    have hloc := tree.get?_location he
    rw [hf] at hloc
    rw [h.only _ f hloc hid, hg] at hloc
    cases hloc
    rfl
  cases loc with
  | nil => cases hg
  | cons k dir =>
    have hm := tree.get?_cons_eq_some_iff.1 hg
    unfold Tree.bytesOf
    generalize hs : tree.entries.findSome? _ = first
    cases first with
    | none =>
      have hnone := List.findSome?_eq_none_iff.1 hs _ hm
      simp at hnone
    | some b =>
      obtain ⟨e, he, hb⟩ := List.exists_of_findSome?_eq_some hs
      split at hb
      · rename_i f hf
        split at hb
        · cases hb
          exact found e he f hf ‹_›
        · cases hb
      · cases hb

theorem Holding.append {more : Bytes} (h : tree.Holding loc id bytes) :
    (tree.append id more now).Holding loc id (bytes ++ more) := by
  obtain ⟨time, hg⟩ := h.file
  rw [Tree.append, h.bytesOf]
  exact Holding.setFile hg h.only

/-! ## The way to the root -/

theorem keepsWays_setFile : tree.KeepsWays (tree.setFile id bytes now) := by
  intro loc node hf hg
  rw [get?_setFile, hg, Option.map_some]
  cases node with
  | directory | link _ => rfl
  | file file => exact absurd rfl (hf file)

theorem keepsWays_of_setFile : (tree.setFile id bytes now).KeepsWays tree := by
  intro loc node hf hg
  rw [get?_setFile, Option.map_eq_some_iff] at hg
  obtain ⟨old, hold, ho⟩ := hg
  cases old with
  | directory | link _ =>
    rw [hold, ← ho]
    rfl
  | file other =>
    rw [overwriteNode] at ho
    split at ho
    · exact absurd ho.symm (hf _)
    · exact absurd ho.symm (hf _)

theorem Opens.setFile (h : tree.Opens root home) :
    (tree.setFile id bytes now).Opens root home := h.mono keepsWays_setFile rfl

theorem Shut.setFile (h : tree.Shut root) : (tree.setFile id bytes now).Shut root :=
  fun home ho => h home (ho.mono keepsWays_of_setFile rfl)

theorem Opens.detach (h : tree.Opens root home) (hf : tree.get? (a :: home) = some (.file file)) :
    (tree.detach (a :: home)).Opens root home := by
  have hb : (tree.detach (a :: home)).Besides home a tree := ⟨⟨file, hf⟩, rfl⟩
  exact h.mono hb.keepsWays_back detach_cwd

end Tree
end LineStore
