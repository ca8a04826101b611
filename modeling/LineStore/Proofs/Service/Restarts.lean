import Mathlib.Control.Monad.Basic
import LineStore.Proofs.Service.Machine

/-!
# What outlives a restart

A write that gives its hidden file the target's name has, for a moment, two names for one file. If
the process stops at that moment both stay. A later process may take up the hidden name, and opening
the hidden file then empties the other one, which may have been published long ago.

So what an item holds is safe from all that is done to other items **if and only if no hidden name
is one more name of its file** (`kept_iff`). That nothing happens to it otherwise is an invariant
(`Held`); that something can happen is a run (`lost_of_shadow`): stop, start again under the number
that the name was made with, count up to it, and write something else. If the process never stops
between a link and the removal that follows, hidden names are shared only in between
(`linking_of_shadowed`).
-/

namespace LineStore

open LineStore.Tree

/-- Two paths lead to one file. -/
def Tree.SameFile (tree : Tree) (p q : Path) : Prop :=
  ∃ loc file there other, tree.follow p = .ok (loc, .file file) ∧
    tree.follow q = .ok (there, .file other) ∧ file.id = other.id

namespace Machine

variable {stores : Stores} {home : Path → Location} {s t : Machine} {act : Act} {item : Item}
  {path root near : Path} {tree after : Tree} {file other : File} {loc : Location} {m n : Name}
  {written : Option Nat} {text : String} {process : UInt32} {count : UInt64}

/-- A hidden name is one more name of the item's file. -/
def Shadowed (stores : Stores) (s : Machine) (item : Item) : Prop :=
  ∃ path, item.path stores = .ok path ∧ ∃ root ∈ stores.writable, ∃ process count,
    s.host.tree.SameFile (root.trim.child (Host.hiddenName process count)) path

theorem Rooted.follow_child (h : Rooted stores home tree) (hr : root ∈ stores.writable)
    (hn : near.Alike root) :
    tree.follow (near.child n) = .ok (loc, .file file) ↔ near.refusal? n = none ∧
      tree.get? (n :: home root) = some (.file file) ∧ loc = n :: home root := by
  rw [((h.opens root hr).alike hn).follow_child (h.unlinked root hr n)]
  cases near.refusal? n with
  | some e => simp
  | none =>
    cases tree.get? (n :: home root) with
    | none => simp
    | some node => simp [and_comm, eq_comm]

theorem Sound.read_eq_ok_iff (h : Sound stores home s) (hp : item.path stores = .ok path) :
    item.read stores s.host.tree = .ok text ↔
      (item.root stores).refusal? item.fileName = none ∧
        ∃ file, s.host.tree.get? (item.fileName :: home (item.root stores)) = some (.file file) ∧
          file.bytes = Utf8.encode text :=
  have hr := item.root_mem stores
  Item.read_eq_ok_iff hp (h.rooted.opens _ hr) (h.rooted.unlinked _ hr _)

/-! ## What is kept -/

/-- The item has this file, and no hidden name is one more name of it. -/
structure Held (stores : Stores) (home : Path → Location) (item : Item) (file : File)
    (s : Machine) : Prop where
  sound : Sound stores home s
  holds : s.host.tree.get? (item.fileName :: home (item.root stores)) = some (.file file)
  alone : ∀ root ∈ stores.writable, ∀ process count other,
    root.trim.refusal? (Host.hiddenName process count) = none →
      s.host.tree.get? (Host.hiddenName process count :: home root) = some (.file other) →
        other.id ≠ file.id

/-- What is done under two other names, to other files. -/
theorem Held.shift (h : Held stores home item file s) (ht : Sound stores home t)
    (hr : root ∈ stores.writable)
    (hs : s.host.tree.Shift (home root) m n written t.host.tree)
    (hlm : item.fileName :: home (item.root stores) ≠ m :: home root)
    (hln : item.fileName :: home (item.root stores) ≠ n :: home root)
    (hn : ∀ process count, Host.hiddenName process count ≠ n) (hw : written ≠ some file.id) :
    Held stores home item file t := by
  have hd := (h.sound.rooted.opens root hr).directory
  refine ⟨ht, hs.keeps hd hlm hln h.holds hw, ?_⟩
  intro there hthere process count other hfree hg hid
  rcases hs.names hd hg with ⟨old, hold, hid'⟩ | ⟨hloc, -⟩ | ⟨-, -, hfresh⟩
  · exact h.alone there hthere process count old hfree hold (hid'.trans hid)
  · exact hn _ _ (List.cons.inj hloc).1
  · exact AtomicWrite.freshId_ne h.holds (hfresh.symm.trans hid)

/-- Another item is kept at another place. -/
theorem ne_of_path_ne (home : Path → Location) {beside : Item} {target : Path}
    (hp : item.path stores = .ok path) (hb : beside.path stores = .ok target)
    (hne : target ≠ path) :
    item.fileName :: home (item.root stores) ≠ beside.fileName :: home (beside.root stores) := by
  intro he
  have hname := (List.cons.inj he).1
  apply hne
  rw [(Item.path_ok hb).1, (Item.path_ok hp).1, hname, Item.root_eq hname]

/-- **No step for another item touches it.** -/
theorem Held.step (h : Held stores home item file s) (hp : item.path stores = .ok path)
    (hs : Step stores act s t) (hne : act ≠ .on path) : Held stores home item file t := by
  have ht := h.sound.step hs
  obtain ⟨-, hvisible⟩ := Item.path_ok hp
  cases hs with
  | launch _ _ _ | retire _ _ | wait _ | restart _ => exact ⟨ht, h.holds, h.alone⟩
  | @advance _ count w hw chunk =>
    obtain ⟨beside, hg⟩ := h.sound.going count w hw
    have hroot := beside.root_mem stores
    obtain ⟨-, hvisible'⟩ := Item.path_ok hg.target
    obtain ⟨written, hshift, hopen⟩ := (hg.deed h.sound.rooted chunk).shift (hvisible' _ _)
    have hshift : s.host.tree.Shift (home (beside.root stores))
        (Host.hiddenName s.host.process count) beside.fileName written
        (s.advance count chunk).host.tree := by
      rw [advance_eq hw]
      exact hshift
    have hln := ne_of_path_ne home hp hg.target fun he => hne (congrArg _ he)
    refine h.shift ht hroot hshift (fun he => ?_) hln hvisible' fun hwritten => ?_
    · exact hvisible _ _ (List.cons.inj he).1.symm
    · -- The file that a write has open has a hidden name.
      have hhidden :
          (beside.root stores).trim.refusal? (Host.hiddenName s.host.process count) = none ∧
            ∃ other, s.host.tree.get? (Host.hiddenName s.host.process count ::
              home (beside.root stores)) = some (.file other) ∧ other.id = file.id := by
        rcases hopen _ hwritten with hhidden | ⟨rest, hphase⟩
        · exact hhidden
        · exact hg.opened _ rest hphase
      obtain ⟨hfree, other, hother, hid⟩ := hhidden
      exact h.alone _ hroot _ _ other hfree hother hid
  | @delete _ name target after hd hu =>
    have hshift := h.sound.rooted.shift_of_unlink hd hu
    have hd : Item.path stores (.document name) = .ok target := hd
    have hln := ne_of_path_ne home hp hd fun he => hne (congrArg _ he)
    exact h.shift ht (Item.root_mem (.document name) stores) hshift hln hln (Item.path_ok hd).2
      nofun

theorem Held.beside (h : Held stores home item file s) (hp : item.path stores = .ok path)
    (hr : Beside stores item s t) : Held stores home item file t := by
  induction hr with
  | refl => exact h
  | tail _ hs ih =>
    obtain ⟨act, hs, hne⟩ := hs
    exact ih.step hp hs (hne path hp)

/-! ## What is lost -/

/-- An item to write under this root, at another path. -/
structure Elsewhere (stores : Stores) (root path : Path) (beside : Item) (target : Path) :
    Prop where
  goes : beside.path stores = .ok target
  under : beside.root stores = root
  takes : beside.Takes "1" .replace
  ne : target ≠ path

/-- One of two names is not the one that is not meant. -/
theorem exists_elsewhere_of_two {a b : Item} {p q : Path} (ha : a.path stores = .ok p)
    (hb : b.path stores = .ok q) (hne : a.fileName ≠ b.fileName) (hra : a.root stores = root)
    (hrb : b.root stores = root) (hta : a.Takes "1" .replace) (htb : b.Takes "1" .replace) :
    ∃ beside target, Elsewhere stores root path beside target := by
  by_cases hp : p = path
  · refine ⟨b, q, hb, hrb, htb, fun hq => hne ?_⟩
    have hpq := hp.trans hq.symm
    rw [(Item.path_ok ha).1, (Item.path_ok hb).1, hra, hrb] at hpq
    simpa [Path.child] using hpq
  · exact ⟨a, p, ha, hra, hta, hp⟩

theorem exists_elsewhere (hr : root ∈ stores.writable) (path : Path) :
    ∃ beside target, Elsewhere stores root path beside target := by
  simp only [Stores.writable, List.mem_cons, List.not_mem_nil, or_false] at hr
  rcases hr with rfl | rfl
  · have hpath : ∀ name, Identifier.isDocumentName name = true →
        (Item.document name).path stores =
          .ok (stores.documents.root.child (Documents.fileName name)) :=
      fun _ hn => Documents.path_eq hn
    exact exists_elsewhere_of_two (hpath "a" (by decide +kernel)) (hpath "b" (by decide +kernel))
      (by decide +kernel) rfl rfl trivial trivial
  · have hpath : ∀ key, Identifier.isKey key = true → (Item.setting key "a").path stores =
        .ok (stores.settings.root.child (Settings.fileName key "a")) :=
      fun _ hk => Settings.path_eq hk (by decide +kernel)
    have hcontent : Settings.checkContent "1" = .ok () := by decide +kernel
    exact exists_elsewhere_of_two (hpath "a" (by decide +kernel)) (hpath "b" (by decide +kernel))
      (by decide +kernel) rfl rfl ⟨rfl, hcontent⟩ ⟨rfl, hcontent⟩

theorem Elsewhere.beside {beside : Item} {target : Path}
    (h : Elsewhere stores root path beside target) (hp : item.path stores = .ok path)
    (hs : Step stores (.on target) s t) : ∃ act, Step stores act s t ∧
      ∀ p, item.path stores = .ok p → act ≠ .on p := by
  refine ⟨_, hs, fun p hp' he => ?_⟩
  rw [hp] at hp'
  cases hp'
  cases he
  exact h.ne rfl

/-- A new process can come to any count with the files as they are. -/
theorem exists_counted {beside : Item} {target : Path}
    (he : Elsewhere stores root path beside target) (hp : item.path stores = .ok path)
    (s : Machine) (process : UInt32) (k : Nat) (hk : k < UInt64.size) :
    ∃ t, Beside stores item s t ∧ t.host.tree = s.host.tree ∧ t.host.process = process ∧
      t.host.writes = UInt64.ofNat k ∧
        ∀ count : UInt64, k ≤ count.toNat → t.writes count = none := by
  induction k with
  | zero =>
    refine ⟨s.restart process, .single ⟨.restart, .restart process, nofun⟩, rfl, rfl, rfl, ?_⟩
    exact fun count _ => rfl
  | succ k ih =>
    obtain ⟨t, hrun, htree, hprocess, hwrites, hfree⟩ := ih (by omega)
    have hcount : (UInt64.ofNat k).toNat = k := UInt64.toNat_ofNat_of_lt' (by omega)
    have hlaunch : Step stores (.on target) t (t.launch target (Utf8.encode "1") .replace) := by
      apply Step.launch he.goes he.takes
      rw [hwrites]
      exact hfree _ (by omega)
    refine ⟨_, hrun.tail (he.beside hp hlaunch), htree, hprocess, ?_, fun count hc => ?_⟩
    · show t.host.writes + 1 = UInt64.ofNat (k + 1)
      rw [hwrites]
      exact (UInt64.ofNat_add k 1).symm
    · have hother : count ≠ t.host.writes := by
        rintro rfl
        rw [hwrites, hcount] at hc
        omega
      exact (Function.update_of_ne hother ..).trans (hfree count (by omega))

theorem Beside.run (h : Beside stores item s t) : Run stores s t := by
  refine Relation.ReflTransGen.mono (fun _ _ hs => ?_) _ _ h
  obtain ⟨act, hs, -⟩ := hs
  exact ⟨act, hs⟩

/-- A write that opens a hidden file that is there empties it. -/
theorem advance_opening {w : AtomicWrite} (hs : Rooted stores home s.host.tree)
    (hr : root ∈ stores.writable) (hw : s.writes count = some w) (hphase : w.phase = .opening)
    (htemp : w.temp = root.trim.child m) (hfree : root.trim.refusal? m = none)
    (hg : s.host.tree.get? (m :: home root) = some (.file other)) (chunk : Nat) :
    (s.advance count chunk).host.tree = s.host.tree.setFile other.id [] s.host.now ∧
      (s.advance count chunk).writes count =
        some { w with phase := AtomicWrite.afterBytes other.id w.content } := by
  have hopens := (hs.opens root hr).alike root.alike_trim
  have hlocate := hopens.locate_found hfree hg (by simp) .asFile
  have hcreate : s.host.tree.create w.temp s.host.now =
      .ok (other.id, s.host.tree.setFile other.id [] s.host.now) := by
    rw [Tree.create, htemp, hlocate]
  have hadvance : w.advance chunk s.host.now s.host.tree =
      (AtomicWrite.afterBytes other.id w.content,
        s.host.tree.setFile other.id [] s.host.now) := by
    unfold AtomicWrite.advance
    rw [hphase]
    dsimp only
    rw [hcreate]
  rw [advance_eq hw, AtomicWrite.step, hadvance]
  exact ⟨rfl, Function.update_self ..⟩

theorem advance_writing {w : AtomicWrite} {id : Nat} {rest : Bytes} (hw : s.writes count = some w)
    (hphase : w.phase = .writing id rest) (chunk : Nat) : (s.advance count chunk).host.tree =
      s.host.tree.append id (rest.take (max 1 chunk)) s.host.now := by
  rw [advance_eq hw, AtomicWrite.step]
  unfold AtomicWrite.advance
  rw [hphase]
  rfl

theorem Sound.read_ne (h : Sound stores home s) (hp : item.path stores = .ok path)
    (hg : s.host.tree.get? (item.fileName :: home (item.root stores)) = some (.file file))
    (hb : file.bytes ≠ Utf8.encode text) : item.read stores s.host.tree ≠ .ok text := by
  intro hread
  obtain ⟨-, found, hfound, hbytes⟩ := (h.read_eq_ok_iff hp).1 hread
  rw [hg] at hfound
  cases hfound
  exact hb hbytes

/-- Something else comes to be written by way of any hidden name. -/
theorem exists_launched (hp : item.path stores = .ok path) (hr : root ∈ stores.writable)
    (s : Machine) (process : UInt32) (count : UInt64) : ∃ beside target t w,
      Elsewhere stores root path beside target ∧ Beside stores item s t ∧
        t.host.tree = s.host.tree ∧ t.writes count = some w ∧ w.target = target ∧
          w.temp = root.trim.child (Host.hiddenName process count) ∧ w.content = Utf8.encode "1" ∧
            w.phase = .opening := by
  obtain ⟨beside, target, he⟩ := exists_elsewhere hr path
  obtain ⟨t, hrun, htree, hprocess, hwrites, hunused⟩ :=
    exists_counted he hp s process count.toNat count.toNat_lt
  rw [UInt64.ofNat_toNat] at hwrites
  have hlaunch : Step stores (.on target) t (t.launch target (Utf8.encode "1") .replace) := by
    apply Step.launch he.goes he.takes
    rw [hwrites]
    exact hunused count (Nat.le_refl _)
  refine ⟨beside, target, _, t.host.prepare target (Utf8.encode "1") .replace, he,
    hrun.tail (he.beside hp hlaunch), htree, ?_, rfl, ?_, rfl, rfl⟩
  · rw [← hwrites]
    exact Function.update_self ..
  · show target.sibling (Host.hiddenName t.host.process t.host.writes) = _
    rw [hprocess, hwrites, (Item.path_ok he.goes).1, he.under]
    exact Path.sibling_child ..

/-- **Where a hidden name is one more name of an item's file, the item's text can be lost.** -/
theorem lost_of_shadow (h : Sound stores home s) (hp : item.path stores = .ok path)
    (hg : s.host.tree.get? (item.fileName :: home (item.root stores)) = some (.file file))
    (hr : root ∈ stores.writable)
    (hfree : root.trim.refusal? (Host.hiddenName process count) = none)
    (hhidden : s.host.tree.get? (Host.hiddenName process count :: home root) = some (.file other))
    (hid : other.id = file.id) (text : String) :
    ∃ t, Beside stores item s t ∧ item.read stores t.host.tree ≠ .ok text := by
  obtain ⟨beside, target, t, w, he, hrun, htree, hw, htarget, htemp, hcontent, hphase⟩ :=
    exists_launched hp hr s process count
  rw [← htree] at hg hhidden
  obtain ⟨hemptied, hw'⟩ :=
    advance_opening (h.run hrun.run).rooted hr hw hphase htemp hfree hhidden 1
  rw [hcontent] at hw'
  have hopened : Beside stores item s (t.advance count 1) :=
    hrun.tail (he.beside hp (htarget ▸ .advance hw 1))
  have hempty : (t.advance count 1).host.tree.get? (item.fileName :: home (item.root stores)) =
      some (.file ⟨other.id, [], t.host.now⟩) := by
    rw [hemptied]
    exact get?_setFile_of_id hg hid
  by_cases ht : Utf8.encode text = []
  case neg => exact ⟨_, hopened, (h.run hopened.run).read_ne hp hempty (Ne.symm ht)⟩
  case pos =>
    -- If the text was empty before, the next operation puts an end to that.
    have hphase' : AtomicWrite.afterBytes other.id (Utf8.encode "1") =
        .writing other.id (Utf8.encode "1") := if_neg (by decide +kernel)
    have hwritten := advance_writing hw' hphase' 1
    have hfilled : Beside stores item s ((t.advance count 1).advance count 1) :=
      hopened.tail (he.beside hp (htarget ▸ .advance hw' 1))
    have hfull : ((t.advance count 1).advance count 1).host.tree.get?
        (item.fileName :: home (item.root stores)) = some (.file ⟨other.id,
          (t.advance count 1).host.tree.bytesOf other.id ++ (Utf8.encode "1").take (max 1 1),
          (t.advance count 1).host.now⟩) := by
      rw [hwritten]
      exact get?_setFile_of_id hempty rfl
    refine ⟨_, hfilled, (h.run hfilled.run).read_ne hp hfull ?_⟩
    rw [ht]
    intro hnil
    have hone := (List.append_eq_nil_iff.1 hnil).2
    exact absurd hone (by decide +kernel)

/-! ## The theorem -/

theorem shadowed_iff (h : Sound stores home s) (hp : item.path stores = .ok path)
    (hsafe : (item.root stores).refusal? item.fileName = none)
    (hg : s.host.tree.get? (item.fileName :: home (item.root stores)) = some (.file file)) :
    Shadowed stores s item ↔ ∃ root ∈ stores.writable, ∃ process count other,
      root.trim.refusal? (Host.hiddenName process count) = none ∧
        s.host.tree.get? (Host.hiddenName process count :: home root) = some (.file other) ∧
          other.id = file.id := by
  have hfollow : ∀ loc found, s.host.tree.follow path = .ok (loc, .file found) ↔
      found = file ∧ loc = item.fileName :: home (item.root stores) := by
    intro loc found
    rw [(Item.path_ok hp).1, h.rooted.follow_child (item.root_mem stores) (.refl _), hg]
    simp [hsafe, eq_comm]
  constructor
  · rintro ⟨_, hp', root, hr, process, count, _, other, _, found, hhidden, hfound, hid⟩
    rw [hp] at hp'
    cases hp'
    obtain ⟨rfl, -⟩ := (hfollow _ _).1 hfound
    obtain ⟨hfree, hother, -⟩ := (h.rooted.follow_child hr root.alike_trim).1 hhidden
    exact ⟨root, hr, process, count, other, hfree, hother, hid⟩
  · rintro ⟨root, hr, process, count, other, hfree, hother, hid⟩
    have hhidden := (h.rooted.follow_child hr root.alike_trim).2 ⟨hfree, hother, rfl⟩
    exact ⟨path, hp, root, hr, process, count, _, other, _, file, hhidden,
      (hfollow _ _).2 ⟨rfl, rfl⟩, hid⟩

/-- An item with a file to itself keeps its text. -/
theorem Sound.kept (h : Sound stores home s) (hread : item.read stores s.host.tree = .ok text)
    (hshadow : ¬ Shadowed stores s item) (ht : Beside stores item s t) :
    item.read stores t.host.tree = .ok text := by
  obtain ⟨path, hp⟩ := Item.exists_path_of_read hread
  obtain ⟨hsafe, file, hg, hbytes⟩ := (h.read_eq_ok_iff hp).1 hread
  rw [shadowed_iff h hp hsafe hg] at hshadow
  have hheld : Held stores home item file s := by
    refine ⟨h, hg, fun root hr process count other hfree hother hid => hshadow ?_⟩
    exact ⟨root, hr, process, count, other, hfree, hother, hid⟩
  have hheld := hheld.beside hp ht
  exact (hheld.sound.read_eq_ok_iff hp).2 ⟨hsafe, file, hheld.holds, hbytes⟩

/-- **An item that was read keeps its text in all runs that only write other items, if and only if
no hidden name is one more name of its file.** The process may stop in these runs at any point, as
it may have done before. -/
theorem kept_iff {host : Host} (hclean : Clean stores host.tree)
    (hrun : Run stores (atRest host) s) (hread : item.read stores s.host.tree = .ok text) :
    (∀ t, Beside stores item s t → item.read stores t.host.tree = .ok text) ↔
      ¬ Shadowed stores s item := by
  obtain ⟨home, hstart, -⟩ := sound_atRest hclean
  have h := hstart.run hrun
  constructor
  · intro hkept hshadow
    obtain ⟨path, hp⟩ := Item.exists_path_of_read hread
    obtain ⟨hsafe, file, hg, -⟩ := (h.read_eq_ok_iff hp).1 hread
    obtain ⟨root, hr, process, count, other, hfree, hother, hid⟩ :=
      (shadowed_iff h hp hsafe hg).1 hshadow
    obtain ⟨t, ht, hlost⟩ := lost_of_shadow h hp hg hr hfree hother hid text
    exact hlost (hkept t ht)
  · exact fun hshadow t ht => h.kept hread hshadow ht

/-! ### Two roots -/

/-- Two roots, `/d` and `/s`. -/
def twoRoots : Stores :=
  ⟨⟨true, [.name [0x64]], false⟩, ⟨true, [.name [0x73]], false⟩, ⟨true, [.name [0x74]], false⟩⟩

/-- A host on which they are, and nothing else. -/
def emptyRoots : Host :=
  ⟨(Tree.empty.attach [] [0x64] .directory).attach [] [0x73] .directory, 0, 1, 0, fun _ => 0⟩

theorem clean_emptyRoots : Clean twoRoots emptyRoots.tree := by
  have empty : ∀ a n node, emptyRoots.tree.get? [n, a] ≠ some node := by
    intro a n node hg
    have hm := (emptyRoots.tree.get?_cons_eq_some_iff).1 hg
    rw [show emptyRoots.tree.entries = [⟨[], [0x73], .directory⟩, ⟨[], [0x64], .directory⟩] from
      by decide +kernel] at hm
    simp at hm
  intro root hr
  simp only [Stores.writable, List.mem_cons, List.not_mem_nil, or_false] at hr
  rcases hr with rfl | rfl
  · refine ⟨[[0x64]], by decide +kernel, by decide +kernel, fun n node hg => ?_⟩
    exact absurd hg (empty _ n node)
  · refine ⟨[[0x73]], by decide +kernel, by decide +kernel, fun n node hg => ?_⟩
    exact absurd hg (empty _ n node)

/-- Where no name starts with a dot, no name is hidden. -/
theorem not_shadowed_of_names (h : Rooted stores home s.host.tree)
    (hn : ∀ e ∈ s.host.tree.entries, e.name.head? ≠ some 0x2E) : ¬ Shadowed stores s item := by
  rintro ⟨_, -, root, hr, process, count, _, file, _, _, hhidden, -⟩
  obtain ⟨-, hg, -⟩ := (h.follow_child hr root.alike_trim).1 hhidden
  rw [get?_of_names fun e he hname => hn e he (by rw [hname, Host.head?_hiddenName])] at hg
  cases hg

/-- A write that is let alone takes steps for its own item only. -/
theorem reflTransGen_advances {r : Machine → Machine → Prop} {target : Path} {w : AtomicWrite}
    (hr : ∀ s t, Step stores (.on target) s t → r s t) (hw : s.writes count = some w)
    (htarget : w.target = target) (chunk n : Nat) :
    Relation.ReflTransGen r s (advances count chunk n s) := by
  induction n generalizing s w with
  | zero => exact .refl
  | succ n ih =>
    have hs : r s (s.advance count chunk) := hr _ _ (htarget ▸ .advance hw chunk)
    refine .head hs (ih ?_ (show (w.step chunk s.host.now s.host.tree).1.target = _ from htarget))
    rw [advance_eq hw]
    exact Function.update_self ..

theorem reflTransGen_launch {r : Machine → Machine → Prop} {target : Path} {mode : WriteMode}
    (hr : ∀ s t, Step stores (.on target) s t → r s t) (hp : item.path stores = .ok target)
    (ht : item.Takes text mode) (hf : s.writes s.host.writes = none) (chunk n : Nat) :
    Relation.ReflTransGen r s
      (advances s.host.writes chunk n (s.launch target (Utf8.encode text) mode)) :=
  .head (hr _ _ (.launch hp ht hf))
    (reflTransGen_advances hr (Function.update_self ..) rfl chunk n)

/-- A put without overwriting, of one document into the empty root, after so many operations. -/
def putting (n : Nat) : Machine :=
  advances 0 1 n ((atRest emptyRoots).launch
    (twoRoots.documents.root.child (Documents.fileName "a")) (Utf8.encode "x") .createNew)

theorem run_putting (n : Nat) : Run twoRoots (atRest emptyRoots) (putting n) := by
  have hpath : (Item.document "a").path twoRoots = .ok _ := Documents.path_eq (by decide +kernel)
  have ht : (Item.document "a").Takes "x" .createNew := trivial
  have hf : (atRest emptyRoots).writes (atRest emptyRoots).host.writes = none := rfl
  exact reflTransGen_launch (fun _ _ hs => ⟨_, hs⟩) hpath ht hf 1 n

/-- Once the hidden name is gone, the document is safe. -/
theorem kept_iff_put :
    (Item.document "a").read twoRoots (putting 4).host.tree = .ok "x" ∧
      ∀ t, Beside twoRoots (.document "a") (putting 4) t →
        (Item.document "a").read twoRoots t.host.tree = .ok "x" := by
  have hread : (Item.document "a").read twoRoots (putting 4).host.tree = .ok "x" := by
    decide +kernel
  refine ⟨hread, (kept_iff clean_emptyRoots (run_putting 4) hread).2 ?_⟩
  obtain ⟨home, hstart, -⟩ := sound_atRest clean_emptyRoots
  apply not_shadowed_of_names (hstart.run (run_putting 4)).rooted
  have hnames : (putting 4).host.tree.entries.all (·.name.head? != some 0x2E) = true := by
    decide +kernel
  intro e he
  simpa using List.all_eq_true.1 hnames e he

/-- The put is stopped after its link. A new process with the same number puts another document, and
that content is then under both names. -/
def overwritten : Machine :=
  advances 0 1 3 (((putting 3).restart 1).launch
    (twoRoots.documents.root.child (Documents.fileName "b")) (Utf8.encode "y") .replace)

/-- **A published document is lost to a write of another one.** -/
theorem lost_after_restart :
    Clean twoRoots emptyRoots.tree ∧ Run twoRoots (atRest emptyRoots) (putting 3) ∧
      (Item.document "a").read twoRoots (putting 3).host.tree = .ok "x" ∧
      Beside twoRoots (.document "a") (putting 3) overwritten ∧
      (Item.document "a").read twoRoots overwritten.host.tree = .ok "y" := by
  have hpath : (Item.document "b").path twoRoots = .ok _ := Documents.path_eq (by decide +kernel)
  have hother : (Item.document "a").path twoRoots = .ok _ := Documents.path_eq (by decide +kernel)
  have beside : ∀ s t, Step twoRoots (.on (twoRoots.documents.root.child
      (Documents.fileName "b"))) s t → ∃ act, Step twoRoots act s t ∧
        ∀ target, (Item.document "a").path twoRoots = .ok target → act ≠ .on target := by
    intro s t hs
    refine ⟨_, hs, fun target htarget he => ?_⟩
    rw [hother] at htarget
    cases htarget
    exact absurd (Act.on.inj he) (by decide +kernel)
  refine ⟨clean_emptyRoots, run_putting 3, by decide +kernel, ?_, by decide +kernel⟩
  have ht : (Item.document "b").Takes "y" .replace := trivial
  have hf : ((putting 3).restart 1).writes ((putting 3).restart 1).host.writes = none := rfl
  exact .head ⟨.restart, .restart 1, nofun⟩ (reflTransGen_launch beside hpath ht hf 1 3)

end Machine
end LineStore
