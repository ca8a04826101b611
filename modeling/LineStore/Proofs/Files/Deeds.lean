import LineStore.Proofs.Files.Respects

/-!
# One operation of a write, in any tree

Before a write stands whatever earlier ones have left: its hidden name may be there already, and may
be one more name of a file that is in use. Where neither its hidden name nor its target's is a link
or, in the case of the first, a directory, a file operation of the write still does one of six
things to the tree (`Shift`), and which of them it is shows in its phases (`Deed`, `deed_advance`).

What matters to others can be read off these six: directories and links stay (`Shift.opens`), names
other than the two of the write keep their files (`Shift.kept`), a file keeps its content unless the
write has it open (`Shift.keeps`), and no name comes to a file but the target's (`Shift.names`).
-/

namespace LineStore

namespace Tree

variable {tree after : Tree} {root other : Path} {home there loc : Location} {m n : Name}
  {file : File} {node : Node} {written : Option Nat}

/-- What comes of a tree in one operation of a write with the hidden name `m` and the target's name
`n`. If a file is written to, `written` is its number. -/
inductive Shift (tree : Tree) (home : Location) (m n : Name) : Option Nat → Tree → Prop
  | same : Shift tree home m n none tree
  | make (hv : tree.get? (m :: home) = none) (time : Instant) :
      Shift tree home m n none (tree.attach home m (.file ⟨tree.freshId, [], time⟩))
  | write (id : Nat) (bytes : Bytes) (time : Instant) :
      Shift tree home m n (some id) (tree.setFile id bytes time)
  | link {file : File} (hm : tree.get? (m :: home) = some (.file file))
      (hv : tree.get? (n :: home) = none) :
      Shift tree home m n none (tree.attach home n (.file file))
  | move {file : File} (hmn : m ≠ n) (hm : tree.get? (m :: home) = some (.file file))
      (hn : ∀ node, tree.get? (n :: home) = some node → ∃ other, node = .file other) :
      Shift tree home m n none ((tree.detach (m :: home)).place home n (.file file))
  | drop {file : File} (hm : tree.get? (m :: home) = some (.file file)) :
      Shift tree home m n none (tree.detach (m :: home))

namespace Shift

theorem cwd (h : tree.Shift home m n written after) : after.cwd = tree.cwd := by
  cases h with
  | same | write _ _ _ => rfl
  | make _ _ | link _ _ => exact attach_cwd
  | move _ _ _ => exact place_cwd.trans detach_cwd
  | drop _ => exact detach_cwd

theorem get?_move (hd : tree.get? home = some .directory) (hmn : m ≠ n)
    (hm : tree.get? (m :: home) = some (.file file))
    (hn : ∀ node, tree.get? (n :: home) = some node → ∃ other, node = .file other)
    (loc : Location) :
    ((tree.detach (m :: home)).place home n (.file file)).get? loc =
      if loc = n :: home then some (.file file)
      else if loc = m :: home then none else tree.get? loc := by
  have hdetach := get?_detach (show tree.get? (m :: home) ≠ some .directory by rw [hm]; simp)
  rw [get?_place _ (by rw [hdetach, if_neg (by simp)]; exact hd), hdetach]
  rw [hdetach, if_neg (by simp [hmn.symm])]
  intro hdir
  obtain ⟨other, ho⟩ := hn _ hdir
  cases ho

variable (hd : tree.get? home = some .directory)

include hd

/-- Names other than the write's two keep their files. -/
theorem kept (h : tree.Shift home m n written after) (hlm : loc ≠ m :: home)
    (hln : loc ≠ n :: home) (hg : tree.get? loc = some node) :
    after.get? loc = some node ∨ ∃ id old new, written = some id ∧ node = .file old ∧ old.id = id ∧
      after.get? loc = some (.file new) ∧ new.id = id := by
  cases h with
  | same => exact .inl hg
  | make _ _ | link _ _ => exact .inl (attach_keeps hg)
  | move hmn hm hn => exact .inl (by rw [get?_move hd hmn hm hn, if_neg hln, if_neg hlm, hg])
  | drop hm => exact .inl (by rw [get?_detach (by rw [hm]; simp), if_neg hlm, hg])
  | write id bytes time =>
    rw [get?_setFile, hg, Option.map_some]
    cases node with
    | directory | link _ => exact .inl rfl
    | file old =>
      by_cases hid : old.id = id
      · exact .inr ⟨id, old, _, rfl, rfl, hid, by rw [overwriteNode, if_pos hid], rfl⟩
      · exact .inl (by rw [overwriteNode, if_neg hid])

/-- What is not written to stays. -/
theorem keeps (h : tree.Shift home m n written after) (hlm : loc ≠ m :: home)
    (hln : loc ≠ n :: home) (hg : tree.get? loc = some (.file file))
    (hw : written ≠ some file.id) : after.get? loc = some (.file file) := by
  rcases h.kept hd hlm hln hg with hk | ⟨id, old, _, hwritten, hfile, hid, -⟩
  · exact hk
  · cases hfile
    exact absurd (hid ▸ hwritten) hw

theorem numbered (h : tree.Shift home m n written after) (hlm : loc ≠ m :: home)
    (hln : loc ≠ n :: home) (hg : tree.get? loc = some (.file file)) :
    ∃ new, after.get? loc = some (.file new) ∧ new.id = file.id := by
  rcases h.kept hd hlm hln hg with hk | ⟨id, old, new, _, hfile, hid, hnew, hid'⟩
  · exact ⟨file, hk, rfl⟩
  · cases hfile
    exact ⟨new, hnew, hid'.trans hid.symm⟩

/-- Whatever is new is a file. -/
theorem old (h : tree.Shift home m n written after) (hg : after.get? loc = some node) :
    (∃ file, node = .file file) ∨ tree.get? loc = some node := by
  have attached : ∀ {k : Name} {new : File}, tree.get? (k :: home) = none →
      (tree.attach home k (.file new)).get? loc = some node →
      (∃ file, node = .file file) ∨ tree.get? loc = some node := by
    intro k new hv hg
    rw [get?_attach hd hv] at hg
    split at hg
    · cases hg
      exact .inl ⟨_, rfl⟩
    · exact .inr hg
  cases h with
  | same => exact .inr hg
  | make hv _ | link _ hv => exact attached hv hg
  | write id bytes time =>
    rw [get?_setFile, Option.map_eq_some_iff] at hg
    obtain ⟨before, hbefore, rfl⟩ := hg
    cases before with
    | directory | link _ => exact .inr hbefore
    | file old =>
      rw [overwriteNode]
      split
      · exact .inl ⟨_, rfl⟩
      · exact .inl ⟨_, rfl⟩
  | move hmn hm hn =>
    rw [get?_move hd hmn hm hn] at hg
    split at hg
    · cases hg
      exact .inl ⟨_, rfl⟩
    · split at hg
      · cases hg
      · exact .inr hg
  | drop hm =>
    rw [get?_detach (by rw [hm]; simp)] at hg
    split at hg
    · cases hg
    · exact .inr hg

/-- **No name comes to a file but the target's**, and it comes to the hidden one. -/
theorem names (h : tree.Shift home m n written after) (hg : after.get? loc = some (.file file)) :
    (∃ old, tree.get? loc = some (.file old) ∧ old.id = file.id) ∨
      (loc = n :: home ∧ ∃ old, tree.get? (m :: home) = some (.file old) ∧ old.id = file.id) ∨
      (loc = m :: home ∧ tree.get? (m :: home) = none ∧ file.id = tree.freshId) := by
  cases h with
  | same => exact .inl ⟨file, hg, rfl⟩
  | make hv _ =>
    rw [get?_attach hd hv] at hg
    split at hg
    · cases hg
      exact .inr (.inr ⟨‹_›, hv, rfl⟩)
    · exact .inl ⟨file, hg, rfl⟩
  | link hm hv =>
    rw [get?_attach hd hv] at hg
    split at hg
    · cases hg
      exact .inr (.inl ⟨‹_›, _, hm, rfl⟩)
    · exact .inl ⟨file, hg, rfl⟩
  | write id bytes time => exact .inl (exists_of_get?_setFile hg)
  | move hmn hm hn =>
    rw [get?_move hd hmn hm hn] at hg
    split at hg
    · cases hg
      exact .inr (.inl ⟨‹_›, _, hm, rfl⟩)
    · split at hg
      · cases hg
      · exact .inl ⟨file, hg, rfl⟩
  | drop hm =>
    rw [get?_detach (by rw [hm]; simp)] at hg
    split at hg
    · cases hg
    · exact .inl ⟨file, hg, rfl⟩

/-- The way to any directory stays. -/
theorem opens (h : tree.Shift home m n written after) (ho : tree.Opens other there) :
    after.Opens other there := by
  refine ho.mono (fun loc node hf hg => ?_) h.cwd
  have noFile : ∀ {file : File}, tree.get? (m :: home) = some (.file file) → loc ≠ m :: home := by
    rintro file hm rfl
    rw [hm] at hg
    cases hg
    exact hf _ rfl
  cases h with
  | same => exact hg
  | make _ _ | link _ _ => exact attach_keeps hg
  | write _ _ _ => exact keepsWays_setFile loc node hf hg
  | drop hm => rw [get?_detach (by rw [hm]; simp), if_neg (noFile hm), hg]
  | move hmn hm hfile =>
    rw [get?_move hd hmn hm hfile, if_neg, if_neg (noFile hm), hg]
    rintro rfl
    obtain ⟨other, rfl⟩ := hfile _ hg
    exact hf _ rfl

end Shift

/-! ## Files with one name -/

theorem Lone.shift (h : tree.Lone loc) (hd : tree.get? home = some .directory)
    (hs : tree.Shift home m n written after) (hlm : loc ≠ m :: home) (hln : loc ≠ n :: home) :
    after.Lone loc := by
  intro node hg
  have hfile : ∃ new, node = .file new := by
    rcases hs.old hd hg with hnew | hold
    · exact hnew
    · exact h.isFile hold
  obtain ⟨new, rfl⟩ := hfile
  have hbefore : ∃ old, tree.get? loc = some (.file old) ∧ old.id = new.id := by
    rcases hs.names hd hg with hold | ⟨he, -⟩ | ⟨he, -⟩
    · exact hold
    · exact absurd he hln
    · exact absurd he hlm
  obtain ⟨old, hold, hid⟩ := hbefore
  obtain ⟨_, he, honly⟩ := h _ hold
  cases he
  refine ⟨new, rfl, fun other f ho hf => ?_⟩
  rcases hs.names hd ho with ⟨g, hg', hgid⟩ | ⟨-, g, hg', hgid⟩ | ⟨-, -, hfresh⟩
  · exact honly other g hg' (hgid.trans (hf.trans hid.symm))
  · exact absurd (honly _ g hg' (hgid.trans (hf.trans hid.symm))).symm hlm
  · exact absurd (hfresh.symm.trans (hf.trans hid.symm)) (AtomicWrite.freshId_ne hold)

theorem get?_setFile_of_id {id : Nat} {bytes : Bytes} {now : Instant}
    (hg : tree.get? loc = some (.file file)) (hid : id = file.id) :
    (tree.setFile id bytes now).get? loc = some (.file ⟨id, bytes, now⟩) := by
  rw [get?_setFile, hg, Option.map_some, overwriteNode, if_pos hid.symm]

theorem Lone.setFile {id : Nat} {bytes : Bytes} {now : Instant} (h : tree.Lone loc) :
    (tree.setFile id bytes now).Lone loc := by
  intro node hg
  have hfile : ∃ new, node = .file new := by
    rw [get?_setFile, Option.map_eq_some_iff] at hg
    obtain ⟨before, hbefore, rfl⟩ := hg
    obtain ⟨old, rfl⟩ := h.isFile hbefore
    rw [overwriteNode]
    split
    · exact ⟨_, rfl⟩
    · exact ⟨_, rfl⟩
  obtain ⟨new, rfl⟩ := hfile
  obtain ⟨old, hold, hid⟩ := exists_of_get?_setFile hg
  obtain ⟨_, he, honly⟩ := h _ hold
  cases he
  refine ⟨new, rfl, fun other f hf hfid => ?_⟩
  obtain ⟨g, hg', hgid⟩ := exists_of_get?_setFile hf
  exact honly other g hg' (hgid.trans (hfid.trans hid.symm))

/-! ## Publishing -/

theorem Opens.eq_of_doorstep {dir : Location} {last : Segment} (ho : tree.Opens root home)
    (h : tree.doorstep (root.child n) = .ok (dir, last)) : dir = home ∧ last = .name n := by
  obtain ⟨hlast, hfault, -⟩ := leads_of_doorstep h
  rw [ho.doorstep hfault] at h
  cases h
  exact ⟨rfl, hlast⟩

/-- What a move comes to where the hidden name may be any file's. Between two names of one file
there is nothing to move. -/
theorem Opens.rename_ok {near : Path} (ho : tree.Opens root home) (hnear : tree.Opens near home)
    (hm : ∀ node, tree.get? (m :: home) = some node → ∃ file, node = .file file)
    (hn : ∀ target, tree.get? (n :: home) ≠ some (.link target)) (hmn : m ≠ n)
    (h : tree.rename (near.child m) (root.child n) = .ok after) :
    ∃ file, tree.get? (m :: home) = some (.file file) ∧
      ((∃ other, tree.get? (n :: home) = some (.file other) ∧ other.id = file.id ∧ after = tree) ∨
        (∀ node, tree.get? (n :: home) = some node → ∃ other, node = .file other) ∧
          after = (tree.detach (m :: home)).place home n (.file file)) := by
  unfold rename at h
  split at h
  · cases h
  split at h
  · cases h
  split at h
  · cases h
  · cases h
  · rename_i hold hnew
    obtain ⟨rfl, hname⟩ := hnear.eq_of_doorstep hold
    obtain ⟨rfl, hname'⟩ := ho.eq_of_doorstep hnew
    cases hname
    cases hname'
    split at h
    · cases h
    split at h
    · cases h
    rename_i node hg
    obtain ⟨file, rfl⟩ := hm node hg
    refine ⟨file, hg, ?_⟩
    iterate 3
      split at h
      · cases h
    split at h
    · rename_i hv
      cases h
      refine .inr ⟨fun node hg => ?_, ?_⟩
      · rw [hv] at hg
        cases hg
      · rw [place_vacant]
        rw [get?_detach (by rw [hg]; simp), hv, ite_self]
    · cases h
    · rename_i other hdir hother
      cases other with
      | directory => exact absurd rfl hdir
      | link target => exact absurd hother (hn target)
      | file other =>
        split at h
        · rename_i hsame
          cases h
          refine .inl ⟨other, hother, ?_, rfl⟩
          have hid : file.id = other.id := by simpa [sameFile, hmn] using hsame
          exact hid.symm
        · cases h
          refine .inr ⟨fun node hg => ?_, rfl⟩
          rw [hother] at hg
          cases hg
          exact ⟨other, rfl⟩
  · cases h

/-- Where the first of a link's two names leads. -/
theorem Opens.file_of_locate (ho : tree.Opens root home)
    (hm : ∀ node, tree.get? (m :: home) = some node → ∃ file, node = .file file)
    (h : tree.locate .itself (root.child m) = .ok (.found loc node)) :
    root.refusal? m = none ∧ ∃ file, tree.get? (m :: home) = some (.file file) ∧
      node = .file file := by
  cases hr : root.refusal? m with
  | some e =>
    rw [ho.locate_refused hr] at h
    cases h
  | none =>
    refine ⟨rfl, ?_⟩
    cases hg : tree.get? (m :: home) with
    | none =>
      rw [ho.locate_vacant hr hg] at h
      cases h
    | some found =>
      obtain ⟨file, rfl⟩ := hm found hg
      rw [ho.locate_found hr hg (by simp)] at h
      cases h
      exact ⟨file, rfl, rfl⟩

/-- And where the second would be. -/
theorem Opens.vacant_of_locate {dir : Location} (ho : tree.Opens root home)
    (hn : ∀ target, tree.get? (n :: home) ≠ some (.link target))
    (h : tree.locate .itself (root.child n) = .ok (.vacant dir n)) :
    dir = home ∧ tree.get? (n :: home) = none := by
  cases hr : root.refusal? n with
  | some e =>
    rw [ho.locate_refused hr] at h
    cases h
  | none =>
    cases hg : tree.get? (n :: home) with
    | none =>
      rw [ho.locate_vacant hr hg] at h
      cases h
      exact ⟨rfl, rfl⟩
    | some found =>
      rw [ho.locate_found hr hg fun target he => hn target (he ▸ hg)] at h
      cases h

end Tree

namespace AtomicWrite

variable {w : AtomicWrite} {tree after : Tree} {root near : Path} {home : Location} {m n : Name}
  {phase next : WritePhase}

/-- What one operation of a write does, from phase to phase. -/
inductive Deed (w : AtomicWrite) (tree : Tree) (near : Path) (home : Location) (m n : Name) :
    WritePhase → WritePhase → Tree → Prop
  | make (hr : near.refusal? m = none) (hv : tree.get? (m :: home) = none) (time : Instant) :
      Deed w tree near home m n .opening (afterBytes tree.freshId w.content)
        (tree.attach home m (.file ⟨tree.freshId, [], time⟩))
  | empty {file : File} (hr : near.refusal? m = none)
      (hm : tree.get? (m :: home) = some (.file file)) (time : Instant) :
      Deed w tree near home m n .opening (afterBytes file.id w.content)
        (tree.setFile file.id [] time)
  | write (id : Nat) (rest more bytes : Bytes) (time : Instant) :
      Deed w tree near home m n (.writing id rest) (afterBytes id more) (tree.setFile id bytes time)
  | move {file : File} (hm : tree.get? (m :: home) = some (.file file))
      (hn : ∀ node, tree.get? (n :: home) = some node → ∃ other, node = .file other) :
      Deed w tree near home m n .publishing (.done (.ok ()))
        ((tree.detach (m :: home)).place home n (.file file))
  /-- Both names are one file's, and both stay. -/
  | stay {file other : File} (hm : tree.get? (m :: home) = some (.file file))
      (hn : tree.get? (n :: home) = some (.file other)) (hid : other.id = file.id) :
      Deed w tree near home m n .publishing (.done (.ok ())) tree
  | link {file : File} (hr : near.refusal? m = none)
      (hm : tree.get? (m :: home) = some (.file file)) (hv : tree.get? (n :: home) = none) :
      Deed w tree near home m n .publishing (.clearing (.ok ())) (tree.attach home n (.file file))
  | clear {file : File} (hm : tree.get? (m :: home) = some (.file file))
      (outcome : Except FileError Unit) :
      Deed w tree near home m n (.clearing outcome) (.done outcome) (tree.detach (m :: home))
  | gone (h : near.refusal? m = none → tree.get? (m :: home) = none)
      (outcome : Except FileError Unit) :
      Deed w tree near home m n (.clearing outcome) (.done outcome) tree
  | fail {phase : WritePhase} (hp : phase = .opening ∨ phase = .publishing) (e : FileError) :
      Deed w tree near home m n phase (.clearing (.error e)) tree
  | ended (outcome : Except FileError Unit) :
      Deed w tree near home m n (.done outcome) (.done outcome) tree

/-- **In every phase it is one of these.** -/
theorem deed_advance (ho : tree.Opens root home) (htarget : w.target = root.child n)
    (hnear : tree.Opens near home) (htemp : w.temp = near.child m)
    (hm : ∀ node, tree.get? (m :: home) = some node → ∃ file, node = .file file)
    (hn : ∀ target, tree.get? (n :: home) ≠ some (.link target)) (hmn : m ≠ n) (chunk : Nat)
    (now : Instant) :
    w.Deed tree near home m n w.phase (w.advance chunk now tree).1
      (w.advance chunk now tree).2 := by
  cases hphase : w.phase with
  | opening =>
    unfold advance
    rw [hphase, htemp]
    dsimp only
    cases hr : near.refusal? m with
    | some e =>
      rw [Tree.create, hnear.locate_refused hr]
      exact .fail (.inl rfl) e
    | none =>
      cases hg : tree.get? (m :: home) with
      | none =>
        rw [hnear.create_child hg, hr]
        exact .make hr hg now
      | some node =>
        obtain ⟨file, rfl⟩ := hm node hg
        rw [Tree.create, hnear.locate_found hr hg (by simp)]
        exact .empty hr hg now
  | writing id rest =>
    unfold advance
    rw [hphase]
    exact .write id rest _ _ now
  | publishing =>
    unfold advance
    rw [hphase]
    dsimp only
    cases hp : w.publish tree with
    | error e => exact .fail (.inr rfl) e
    | ok after =>
      dsimp only
      unfold publish at hp
      cases hmode : w.mode with
      | replace =>
        rw [hmode, htemp, htarget] at hp
        obtain ⟨file, hg, ⟨other, ho, hid, rfl⟩ | ⟨hfile, rfl⟩⟩ :=
          ho.rename_ok hnear hm hn hmn hp
        · exact .stay hg ho hid
        · exact .move hg hfile
      | createNew =>
        rw [hmode, htemp, htarget] at hp
        obtain ⟨dir, loc, node, hnew, hold, rfl⟩ := Tree.vacant_of_link_ok hp
        obtain ⟨hr, file, hg, rfl⟩ := hnear.file_of_locate hm hold
        obtain ⟨rfl, hv⟩ := ho.vacant_of_locate hn hnew
        exact .link hr hg hv
  | clearing outcome =>
    unfold advance clear
    rw [hphase, htemp, hnear.unlink_child]
    dsimp only
    cases hr : near.refusal? m with
    | some e => exact .gone (fun h => by rw [hr] at h; cases h) outcome
    | none =>
      cases hg : tree.get? (m :: home) with
      | none => exact .gone (fun _ => hg) outcome
      | some node =>
        obtain ⟨file, rfl⟩ := hm node hg
        exact .clear hg outcome
  | done outcome =>
    unfold advance
    rw [hphase]
    exact .ended outcome

/-- Only a file that the write has open is written to. -/
theorem Deed.shift (hmn : m ≠ n) (h : w.Deed tree near home m n phase next after) :
    ∃ written, tree.Shift home m n written after ∧ ∀ id, written = some id →
      (near.refusal? m = none ∧ ∃ file, tree.get? (m :: home) = some (.file file) ∧ file.id = id) ∨
        ∃ rest, phase = .writing id rest := by
  cases h with
  | make _ hv time => exact ⟨none, .make hv time, nofun⟩
  | empty hr hm time =>
    refine ⟨_, .write _ _ time, fun id hid => .inl ⟨hr, _, hm, ?_⟩⟩
    exact Option.some.inj hid
  | write id rest more bytes time =>
    refine ⟨_, .write id bytes time, fun id' hid => .inr ⟨rest, ?_⟩⟩
    rw [Option.some.inj hid]
  | move hm hn => exact ⟨none, .move hmn hm hn, nofun⟩
  | link _ hm hv => exact ⟨none, .link hm hv, nofun⟩
  | clear hm _ => exact ⟨none, .drop hm, nofun⟩
  | stay _ _ _ | gone _ _ | fail _ _ | ended _ => exact ⟨none, .same, nofun⟩

theorem afterBytes_cases (id : Nat) (rest : Bytes) :
    afterBytes id rest = .publishing ∨ afterBytes id rest = .writing id rest := by
  unfold afterBytes
  split
  · exact .inl rfl
  · exact .inr rfl

/-- Bytes that are left are for the file that is open. -/
theorem id_of_afterBytes {id opened : Nat} {rest more : Bytes}
    (h : afterBytes opened more = .writing id rest) : opened = id := by
  rcases afterBytes_cases opened more with hp | hw
  · rw [hp] at h
    cases h
  · rw [hw] at h
    cases h
    rfl

theorem afterBytes_ne_clearing (id : Nat) (rest : Bytes) (outcome : Except FileError Unit) :
    afterBytes id rest ≠ .clearing outcome := by
  intro h
  rcases afterBytes_cases id rest with hp | hw
  · rw [hp] at h
    cases h
  · rw [hw] at h
    cases h

/-- The file that a write has open keeps the hidden name. -/
theorem Deed.opened (hd : tree.get? home = some .directory)
    (h : w.Deed tree near home m n phase next after)
    (ho : ∀ id rest, phase = .writing id rest → near.refusal? m = none ∧
      ∃ file, tree.get? (m :: home) = some (.file file) ∧ file.id = id)
    {id : Nat} {rest : Bytes} (hnext : next = .writing id rest) : near.refusal? m = none ∧
      ∃ file, after.get? (m :: home) = some (.file file) ∧ file.id = id := by
  cases h with
  | make hr hv time =>
    refine ⟨hr, _, by rw [Tree.get?_attach hd hv, if_pos rfl], id_of_afterBytes hnext⟩
  | empty hr hm time =>
    obtain rfl := id_of_afterBytes hnext
    exact ⟨hr, _, Tree.get?_setFile_of_id hm rfl, rfl⟩
  | write id' rest' more bytes time =>
    obtain rfl := id_of_afterBytes hnext
    obtain ⟨hr, file, hg, hid⟩ := ho _ _ rfl
    exact ⟨hr, _, Tree.get?_setFile_of_id hg hid.symm, rfl⟩
  | move _ _ | stay _ _ _ | link _ _ _ | clear _ _ | gone _ _ | fail _ _ | ended _ => cases hnext

/-- A write that has made its link could name its hidden file. -/
theorem Deed.refusal? (h : w.Deed tree near home m n phase next after)
    (hnext : next = .clearing (.ok ())) : near.refusal? m = none := by
  cases h with
  | make hr _ _ | empty hr _ _ | link hr _ _ => exact hr
  | write _ _ _ _ _ => exact absurd hnext (afterBytes_ne_clearing _ _ _)
  | move _ _ | stay _ _ _ | clear _ _ | gone _ _ | fail _ _ | ended _ => cases hnext

/-- A write's own hidden file, after one of its operations. -/
theorem Deed.lone (hd : tree.get? home = some .directory) (hmn : m ≠ n)
    (h : w.Deed tree near home m n phase next after)
    (hl : tree.Lone (m :: home) ∨ phase = .clearing (.ok ()) ∧ near.refusal? m = none) :
    after.Lone (m :: home) ∨ next = .clearing (.ok ()) := by
  -- Only a write that has made its link can have shared its file.
  have lone : phase ≠ .clearing (.ok ()) → tree.Lone (m :: home) := by
    intro hp
    rcases hl with hl | ⟨hphase, -⟩
    · exact hl
    · exact absurd hphase hp
  cases h with
  | make _ hv time => exact .inl (Tree.Holding.attach hd hv).lone
  | empty _ _ time => exact .inl (Tree.Lone.setFile (lone nofun))
  | write _ _ _ _ _ => exact .inl (Tree.Lone.setFile (lone nofun))
  | move hm hn =>
    refine .inl (Tree.Lone.of_vacant ?_)
    rw [Tree.Shift.get?_move hd hmn hm hn, if_neg (by simp [hmn]), if_pos rfl]
  | stay hm hn hid =>
    obtain ⟨_, he, honly⟩ := lone nofun _ hm
    cases he
    exact absurd (List.cons.inj (honly _ _ hn hid)).1.symm hmn
  | link _ _ _ => exact .inr rfl
  | clear hm outcome =>
    refine .inl (Tree.Lone.of_vacant ?_)
    rw [Tree.get?_detach (by rw [hm]; simp), if_pos rfl]
  | gone hg outcome =>
    refine .inl ?_
    rcases hl with hl | ⟨-, hr⟩
    · exact hl
    · exact Tree.Lone.of_vacant (hg hr)
  | fail hp e =>
    refine .inl (lone ?_)
    rcases hp with rfl | rfl <;> exact nofun
  | ended outcome => exact .inl (lone nofun)

end AtomicWrite
end LineStore
