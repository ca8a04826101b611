import LineStore.Proofs.Files.Standing
import LineStore.Store.Dictionaries

/-!
# Resolving agrees with walking

A source is resolved name by name: each name that exists is exchanged for its real location, and the
next one is asked for from there. Where the whole path exists that comes to the same as walking it
in one go (`resolveFrom_of_walk`). The invariant is that the resolution is always **in the directory
in which the walk is**, and that this directory stands there (`Stands`) and has a path that is short
enough (`Fits`), so that the question about the next name, which begins at the root, gets to it by
the straight way. The walk has its links counted over the whole path, the resolution over a single
name, so it is never the first to give up.
-/

namespace LineStore.Dictionaries

open LineStore.Tree

variable {tree : Tree} {links : Nat} {dir home real : Location} {steps : List Segment}
  {node : Node}

/-- What the tree says of one more name that exists. -/
theorem canonical_of_walk_name {n : Name} (hl : links ≤ linkLimit)
    (hd : tree.Stands dir .directory) (hdf : dir.Fits) (hdz : ∀ m ∈ dir, 0 ∉ m) (hn : 0 ∉ n)
    (ho : tree.outgrows links dir [.name n] = false)
    (hw : tree.walk .followed links dir [.name n] = .ok (.found real node)) :
    tree.canonical (.ofLocation (n :: dir)) = .ok real := by
  have hzero : (Path.ofLocation (n :: dir)).hasZero = false :=
    hasZero_ofLocation.2 (by simpa [hn] using hdz)
  rw [hd.canonical_child hdf, hzero, if_neg Bool.false_ne_true, outgrows_more _ _ _ _ hl hw, ho,
    if_neg Bool.false_ne_true, walk_more _ _ _ _ hl hw]
  rfl

/-- **Where a walk succeeds, resolving its steps one by one ends at the same location.** -/
theorem resolveFrom_of_walk (hz : tree.ZeroFree) : ∀ {steps : List Segment} {links dir},
    links ≤ linkLimit → tree.Stands dir .directory → dir.Fits → (∀ m ∈ dir, 0 ∉ m) →
    (∀ n, .name n ∈ steps → 0 ∉ n) → tree.outgrows links dir steps = false →
    tree.walk .followed links dir steps = .ok (.found real node) →
    resolveFrom tree dir steps = .ok real := by
  intro steps
  induction steps with
  | nil =>
    intro links dir _ _ _ _ _ _ hw
    rw [walk_nil] at hw
    cases hw
    rfl
  | cons step rest ih =>
    intro links dir hl hd hdf hdz hs ho hw
    have hrest : ∀ n, .name n ∈ rest → 0 ∉ n := fun n hn => hs n (.tail _ hn)
    cases step with
    | blank | here =>
      rw [walk_stays rfl] at hw
      rw [outgrows_stays rfl] at ho
      exact ih hl hd hdf hdz hrest ho hw
    | up =>
      rw [walk_up] at hw
      rw [outgrows_up] at ho
      exact ih hl hd.up hdf.up (fun m hm => hdz m (List.mem_of_mem_tail hm)) hrest ho hw
    | name n =>
      have hn : 0 ∉ n := hs n List.mem_cons_self
      have hone : ∀ m, Segment.name m ∈ [Segment.name n] → 0 ∉ m := by simpa using hn
      rw [resolveFrom]
      by_cases hr : rest = []
      · subst hr
        rw [canonical_of_walk_name hl hd hdf hdz hn ho hw]
        rfl
      · -- There is more to do, so the walk went through a directory, and goes on from there.
        obtain ⟨left, next, hleads, hw⟩ :=
          exists_leads_of_walk_more hr (.inl rfl) links dir [.name n] hw
        have hfirst := hleads.walk_followed
        rw [← List.singleton_append, hleads.outgrows_append, Bool.or_eq_false_iff] at ho
        rw [canonical_of_walk_name hl hd hdf hdz hn ho.1 hfirst]
        exact ih (Nat.le_trans hleads.left_le hl) (stands_of_walk _ _ _ hd hfirst)
          (fits_of_walk _ _ _ hdf ho.1 hfirst) (zero_not_mem_of_walk hz _ _ _ hdz hone hfirst)
          hrest ho.2 hw

/-- A path from the root that has a canonical location is resolved to it. The separator at its end
asks for a directory; it is left off here, and what the walk found is one. -/
theorem resolveLenient_of_canonical (hz : tree.ZeroFree) {p : Path} (ha : p.absolute = true)
    (h : tree.canonical p = .ok real) : resolveLenient tree p = .ok real := by
  obtain ⟨hzero, -, ho, node, hw⟩ := canonical_eq_ok_iff.1 h
  rw [start, if_pos ha, Path.steps] at hw ho
  have hsegments : ∃ node,
      tree.walk .followed linkLimit [] p.segments = .ok (.found real node) := by
    split at hw
    · obtain ⟨left, last, hl, hw⟩ := exists_leads_of_walk_more (by simp) (.inl rfl) _ _ _ hw
      rw [walk_stays rfl, walk_nil] at hw
      cases hw
      exact ⟨_, hl.walk_followed⟩
    · rw [List.append_nil] at hw
      exact ⟨node, hw⟩
  obtain ⟨node, hw⟩ := hsegments
  exact resolveFrom_of_walk hz (Nat.le_refl _) .root .root (by simp)
    (hasZero_eq_false_iff.1 hzero) (outgrows_of_append _ _ _ ho) hw

/-- **Resolving agrees with the file system wherever the path exists.** If a source, taken from the
root if it is relative, has a canonical location, then it is resolved to just that location, and
accepted exactly if that is the root's or has it among those above, name by name. -/
theorem resolve_canonical (hz : tree.ZeroFree) {root : Path} {source : String}
    (hroot : tree.canonical root = .ok home)
    (hreal : tree.canonical ((Path.ofLocation home).join (.ofString source)) = .ok real) :
    resolveLenient tree ((Path.ofLocation home).join (.ofString source)) = .ok real ∧
      (home <:+ real → resolve? tree root source = some real) ∧
      (¬ home <:+ real → resolve? tree root source = none) := by
  have habs : ((Path.ofLocation home).join (.ofString source)).absolute = true := by
    unfold Path.join
    split
    · assumption
    · rfl
  have hres := resolveLenient_of_canonical hz habs hreal
  refine ⟨hres, fun hin => ?_, fun hout => ?_⟩
  · simp [resolve?, hroot, hres, List.isSuffixOf_iff_suffix.2 hin]
  · have hno : home.isSuffixOf real ≠ true := fun h => hout (List.isSuffixOf_iff_suffix.1 h)
    simp [resolve?, hroot, hres, hno]

/-- A directory with a directory, a file in it, and a link that goes into it and back, to another
link, which names it from the root. -/
def turningTree : Tree :=
  ((((Tree.empty.attach [] [0x64] .directory).attach [[0x64]] [0x73] .directory).attach
    [[0x73], [0x64]] [0x77] (.file ⟨0, [0x61], 0⟩)).attach
    [[0x64]] [0x6C] (.link [0x73, 0x2F, 0x2E, 0x2E, 0x2F, 0x6B])).attach
    [[0x64]] [0x6B] (.link [0x2F, 0x64, 0x2F, 0x73])

theorem zeroFree_turningTree : turningTree.ZeroFree := by
  unfold turningTree
  refine ((((ZeroFree.empty.attach ?_).attach ?_).attach ?_).attach ?_).attach ?_
  all_goals rintro target ⟨⟩
  · decide
  · decide

/-- A source that goes through both of the links. -/
theorem resolve_canonical_turning :
    turningTree.ZeroFree ∧ turningTree.canonical ⟨true, [.name [0x64]], false⟩ = .ok [[0x64]] ∧
      resolve? turningTree ⟨true, [.name [0x64]], false⟩ "l/./w" =
        some [[0x77], [0x73], [0x64]] := by
  have hroot : turningTree.canonical ⟨true, [.name [0x64]], false⟩ = .ok [[0x64]] := rfl
  have hreal : turningTree.canonical ((Path.ofLocation [[0x64]]).join (.ofString "l/./w")) =
      .ok [[0x77], [0x73], [0x64]] := rfl
  exact ⟨zeroFree_turningTree, hroot,
    (resolve_canonical zeroFree_turningTree hroot hreal).2.1 (by decide)⟩

end LineStore.Dictionaries
