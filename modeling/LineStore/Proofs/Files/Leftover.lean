import LineStore.Proofs.Files.Hidden
import LineStore.Proofs.Files.Respects

/-!
# Writes over what an earlier one left

A process that was stopped may have left a file under a hidden name, and a later write may come to
have that name. If the file has no other name, the write still comes to one new entry, or to an
error and no entry at all (`run_lone`): the leftover is emptied and filled as a new file would be,
and it is gone with the hidden name. What is published then has a number that no other entry has,
whether the file is new or the leftover.
-/

namespace LineStore

namespace Tree

variable {tree base : Tree} {home loc : Location} {m : Name} {file : File} {id : Nat}
  {bytes : Bytes} {now : Instant}

/-- Without the entry, nobody sees that its file was written. -/
theorem detach_setFile (ho : ∀ other f, tree.get? other = some (.file f) → f.id = id → other = loc)
    (hd : tree.get? loc ≠ some .directory) :
    (tree.setFile id bytes now).detach loc = tree.detach loc := by
  have hset : (tree.setFile id bytes now).get? loc ≠ some .directory := by
    rw [get?_setFile]
    simpa using hd
  have hentry : ∀ e ∈ tree.entries, e.location ≠ loc →
      ({ e with node := overwriteNode id bytes now e.node } : Entry) = e := by
    intro e he hl
    obtain ⟨dir, k, other⟩ := e
    cases other with
    | directory | link _ => rfl
    | file f =>
      have hid : f.id ≠ id := fun hid => hl (ho _ f (tree.get?_location he) hid)
      rw [overwriteNode, if_neg hid]
  refine ext ?_ ?_
  · rw [detach, dif_pos hset, detach, dif_pos hd]
    dsimp only [setFile]
    rw [List.filter_map]
    refine (List.map_congr_left fun e he => ?_).trans (List.map_id _)
    obtain ⟨hm, hl⟩ := List.mem_filter.1 he
    exact hentry e hm (of_decide_eq_true hl)
  · rw [detach_cwd, detach_cwd]
    rfl

namespace Tops

theorem holding (h : base.Tops home m file tree) :
    tree.Holding (m :: home) file.id file.bytes :=
  ⟨⟨file.modified, h.entry⟩, h.only⟩

theorem setFile (h : base.Tops home m file tree) :
    base.Tops home m ⟨file.id, bytes, now⟩ (tree.setFile file.id bytes now) where
  entry := by rw [get?_setFile, h.entry, Option.map_some, overwriteNode, if_pos rfl]
  only := (Holding.setFile h.entry h.only).only
  rest := (detach_setFile h.only (by rw [h.entry]; simp)).trans h.rest

theorem append {more : Bytes} (h : base.Tops home m file tree) :
    base.Tops home m ⟨file.id, file.bytes ++ more, now⟩ (tree.append file.id more now) := by
  rw [Tree.append, h.holding.bytesOf]
  exact h.setFile

/-- The number of the file is new to the tree below it. -/
theorem id_ne (h : base.Tops home m file tree) {f : File}
    (hf : base.get? loc = some (.file f)) : f.id ≠ file.id := by
  intro hid
  rw [h.get?_eq] at hf
  split at hf
  · cases hf
  · rename_i hl
    exact hl (h.only loc f hf hid)

end Tops

end Tree

namespace AtomicWrite

open LineStore.Tree

variable {w : AtomicWrite} {tree : Tree} {root near : Path} {home : Location} {m n : Name}

/-- What an opened hidden file is, over the tree without its name. -/
theorem exists_tops (ho : tree.Opens root home) (hm : root.refusal? m = none)
    (hl : tree.Lone (m :: home)) (content : Bytes) (now : Instant) : ∃ id made,
      tree.create (root.child m) now = .ok (id, made) ∧
      (if content = [] then made else made.append id content now).Opens root home ∧
      (tree.detach (m :: home)).Tops home m ⟨id, content, now⟩
        (if content = [] then made else made.append id content now) := by
  have filled : ∀ {id : Nat} {made : Tree}, made.Opens root home →
      (tree.detach (m :: home)).Tops home m ⟨id, [], now⟩ made →
      (if content = [] then made else made.append id content now).Opens root home ∧
        (tree.detach (m :: home)).Tops home m ⟨id, content, now⟩
          (if content = [] then made else made.append id content now) := by
    intro id made hmade htops
    by_cases hc : content = []
    · rw [if_pos hc, hc]
      exact ⟨hmade, htops⟩
    · rw [if_neg hc]
      exact ⟨hmade.setFile, htops.append⟩
  cases hg : tree.get? (m :: home) with
  | none =>
    have hcreate : tree.create (root.child m) now = _ := ho.create_child hg
    rw [hm] at hcreate
    refine ⟨_, _, hcreate, filled (ho.attach hg) ?_⟩
    rw [detach_vacant hg]
    exact ⟨by rw [get?_attach ho.directory hg, if_pos rfl],
      (Holding.attach ho.directory hg).only, detach_attach ho.directory hg (by simp)⟩
  | some node =>
    obtain ⟨file, rfl, honly⟩ := hl node hg
    have htops : (tree.detach (m :: home)).Tops home m file tree := ⟨hg, honly, rfl⟩
    refine ⟨file.id, tree.setFile file.id [] now, ?_, filled ho.setFile htops.setFile⟩
    rw [create, ho.locate_found hm hg (by simp)]

/-- **A write over a file of no other name is one new entry, or an error and none.** What is
published has a number of its own. -/
theorem run_lone (ho : tree.Opens root home) (ht : w.target = root.child n)
    (hnear : near.Alike root) (hw : w.temp = near.child m) (hl : tree.Lone (m :: home))
    (hne : m ≠ n) (now : Instant) :
    ∃ id base, (base = tree ∨ base = tree.detach (m :: home)) ∧
      (∀ loc f, base.get? loc = some (.file f) → f.id ≠ id) ∧
      w.run now tree =
        match hindrance? tree near root home m n w.mode with
        | some e => (.error e, base)
        | none => (.ok (), base.place home n (.file ⟨id, w.content, now⟩)) := by
  cases hm : near.refusal? m with
  | some e =>
    refine ⟨tree.freshId, tree, .inl rfl, fun loc f hf => (freshId_ne hf).symm, ?_⟩
    rw [run, hw, create, (ho.alike hnear).locate_refused hm, hindrance?, hm]
    exact congrArg _ (clear_refused (ho.alike hnear) hw hm)
  | none =>
    obtain ⟨id, made, hcreate, hopens, htops⟩ := exists_tops (ho.alike hnear) hm hl w.content now
    have hn : (tree.detach (m :: home)).get? (n :: home) = tree.get? (n :: home) := by
      rw [get?_detach, if_neg (by simp [hne.symm])]
      intro hd
      obtain ⟨file, hf⟩ := hl.isFile hd
      cases hf
    refine ⟨id, tree.detach (m :: home), .inr rfl, fun loc f hf => htops.id_ne hf, ?_⟩
    have hfinish := finish_tops hopens hw hm htops hne (hopens.alike hnear.symm) ht
    rw [hn] at hfinish
    rw [run, hw, hcreate, hindrance?, hm, Option.none_or]
    exact hfinish

end AtomicWrite

/-- A host's write, where its hidden name stands for no file that has another name. -/
theorem Host.writeAtomic_lone {host : Host} {root : Path} {home : Location} {n : Name}
    (ho : host.tree.Opens root home) (hl : host.tree.Lone (host.hidden :: home))
    (hne : host.hidden ≠ n) (content : Bytes) (mode : WriteMode) :
    ∃ id base, (base = host.tree ∨ base = host.tree.detach (host.hidden :: home)) ∧
      (∀ loc f, base.get? loc = some (.file f) → f.id ≠ id) ∧
      host.writeAtomic (root.child n) content mode =
        match AtomicWrite.hindrance? host.tree root.trim root home host.hidden n mode with
        | some e => (.error e, host.wrote (host.prepare (root.child n) content mode) base)
        | none => (.ok (), host.wrote (host.prepare (root.child n) content mode)
            (base.place home n (.file ⟨id, content, host.now⟩))) := by
  obtain ⟨id, base, hbase, hid, hrun⟩ := AtomicWrite.run_lone
    (w := host.prepare (root.child n) content mode) ho rfl root.alike_trim
    (Path.sibling_child ..) hl hne host.now
  have hr : (host.prepare (root.child n) content mode).run host.now host.tree =
      match AtomicWrite.hindrance? host.tree root.trim root home host.hidden n mode with
      | some e => (.error e, base)
      | none => (.ok (), base.place home n (.file ⟨id, content, host.now⟩)) := hrun
  refine ⟨id, base, hbase, hid, ?_⟩
  cases hx : AtomicWrite.hindrance? host.tree root.trim root home host.hidden n mode with
  | some e => rw [hx] at hr; rw [writeAtomic, hr]
  | none => rw [hx] at hr; rw [writeAtomic, hr]

end LineStore
