import Mathlib.Control.Monad.Basic
import LineStore.Proofs.Documents.Listed
import LineStore.Proofs.Files.Course
import LineStore.Proofs.Files.Reread

/-!
# Writes are atomic

At every point of its course a write shows its target as it was or as it will be, and the listings
of documents with it, and there is one switch between the two (`atomic_course`). Up to the switch
there is at most the hidden file, which no reader comes upon: the target is not called like it, no
link leads to it, and a listing leaves out what starts with a dot.

What is read after the switch is the new content, if the target's directory can still be reached.
That can fail in one way only, where the directory was reached through the entry that was replaced.
-/

namespace LineStore

/-- Entries that show nothing can be left out of a collection. -/
theorem filterMapM_filter {α β γ ε : Type} {key : α → γ} {f g : γ → Except ε (Option β)}
    {keep : α → Bool} {xs : List α}
    (hskip : ∀ x ∈ xs, keep x = false → f (key x) = .ok none)
    (hsame : ∀ x ∈ xs, keep x = true → f (key x) = g (key x)) :
    (xs.map key).filterMapM f = ((xs.filter keep).map key).filterMapM g := by
  induction xs with
  | nil => rfl
  | cons x rest ih =>
    have hrest := ih (fun y hy => hskip y (List.mem_cons_of_mem _ hy))
      (fun y hy => hsame y (List.mem_cons_of_mem _ hy))
    rw [List.map_cons, List.filterMapM_cons, hrest]
    cases hk : keep x with
    | false =>
      rw [hskip x List.mem_cons_self hk, List.filter_cons_of_neg (by simp [hk])]
      rfl
    | true =>
      rw [hsame x List.mem_cons_self hk, List.filter_cons_of_pos hk, List.map_cons,
        List.filterMapM_cons]

namespace Tree

variable {tree other : Tree} {home : Location} {m : Name} {p : Path}

/-! ## What readers see of a hidden file -/

/-- **A path that neither ends in the file's name nor is led there reads as if it were not there.**
-/
theorem Besides.readBytes_eq (h : tree.Besides home m other) (ho : tree.Opens p.folder home)
    (hu : tree.Unpointed home m) (hn : p.name? ≠ some m) :
    other.readBytes p = tree.readBytes p := by
  obtain ⟨stays, hstays, hsteps⟩ := p.exists_steps_eq
  obtain ⟨left, hl⟩ := ho.trail
  rw [Tree.start, p.absolute_folder] at hl
  have hna : ¬ tree.Asks home m left home (p.name?.toList.map .name ++ stays) := by
    cases hname : p.name? with
    | none => exact not_asks_stays hstays
    | some n =>
      apply not_asks_name hu _ hstays
      rintro he
      rw [hname, (List.cons.inj he).1] at hn
      exact hn rfl
  rw [readBytes, readBytes, h.follow_eq hu hsteps hl hna]

/-- What a listing looks up of a directory entry, if its name can be listed. -/
theorem Besides.listed?_eq {store : Documents} {left : Nat} {dir : Location} {n : Name}
    (h : tree.Besides home m other) (hu : tree.Unpointed home m)
    (hm : Documents.listedName? m = none)
    (hl : tree.Leads linkLimit (tree.start store.root) store.root.segments left dir) :
    store.listed? other n = store.listed? tree n := by
  unfold Documents.listed?
  cases hn : Documents.listedName? n with
  | none => rfl
  | some name =>
    have hna : ¬ tree.Asks home m left dir [.name n] := by
      apply not_asks_name hu _ (by simp)
      intro he
      rw [(List.cons.inj he).1, hm] at hn
      cases hn
    dsimp only
    rw [h.follow_eq hu (Path.steps_child ..) hl hna]

theorem list_toOption_of_not_directory {store : Documents}
    (h : ∀ dir, tree.follow store.root ≠ .ok (dir, .directory)) :
    (store.list tree).toOption = none := by
  rw [Documents.list, readDirectory]
  cases hf : tree.follow store.root with
  | error e => rfl
  | ok found =>
    obtain ⟨dir, node⟩ := found
    cases node with
    | directory => exact absurd hf (h dir)
    | file f | link target => rfl

/-- **A listing shows no more with the file than without it.** -/
theorem Besides.list_eq (store : Documents) (h : tree.Besides home m other)
    (hu : tree.Unpointed home m) (hm : Documents.listedName? m = none) :
    (store.list other).toOption = (store.list tree).toOption := by
  by_cases hd : ∃ dir, tree.follow store.root = .ok (dir, .directory)
  case neg =>
    rw [list_toOption_of_not_directory, list_toOption_of_not_directory]
    · intro dir hf
      exact hd ⟨dir, hf⟩
    · intro dir hf
      exact hd ⟨dir, follow_directory_of_keepsWays h.keepsWays_back (h.start _).symm hf⟩
  case pos =>
    obtain ⟨dir, hf⟩ := hd
    obtain ⟨left, hl⟩ := leads_of_follow hf
    have hf' := follow_directory_of_keepsWays h.keepsWays (h.start _) hf
    have hnames : ((other.children dir).map (·.1)).filterMapM (store.listed? other) =
        ((tree.children dir).map (·.1)).filterMapM (store.listed? tree) := by
      have hswap : tree.entries.filter (·.dir = dir) =
          (other.entries.filter (·.dir = dir)).filter (·.location ≠ m :: home) := by
        rw [h.entries_eq, List.filter_filter, List.filter_filter]
        simp only [Bool.and_comm]
      rw [children, children, List.map_map, List.map_map, hswap]
      apply filterMapM_filter
      · intro e _ he
        have hloc : e.location = m :: home := by simpa using he
        show store.listed? other e.name = _
        rw [Documents.listed?, (List.cons.inj hloc).1, hm]
      · intro e _ _
        exact h.listed?_eq hu hm hl
    rw [Documents.list, Documents.list, readDirectory, readDirectory, hf, hf']
    dsimp only
    rw [hnames]

/-- The two trees show the same under the path, and in every listing of documents. -/
structure LooksAs (other : Tree) (p : Path) (tree : Tree) : Prop where
  read : other.readBytes p = tree.readBytes p
  lists : ∀ store : Documents, (store.list other).toOption = (store.list tree).toOption

theorem LooksAs.refl (tree : Tree) (p : Path) : tree.LooksAs p tree := ⟨rfl, fun _ => rfl⟩

theorem Besides.looksAs (h : tree.Besides home m other) (ho : tree.Opens p.folder home)
    (hu : tree.Unpointed home m) (hm : Documents.listedName? m = none) (hn : p.name? ≠ some m) :
    other.LooksAs p tree :=
  ⟨h.readBytes_eq ho hu hn, fun store => h.list_eq store hu hm⟩

theorem Veiled.looksAs (h : tree.Veiled p.folder m other)
    (hu : ∀ home, tree.Opens p.folder home → tree.Unpointed home m)
    (hm : Documents.listedName? m = none) (hn : p.name? ≠ some m) : other.LooksAs p tree := by
  rcases h with rfl | ⟨home, ho, hb⟩
  · exact .refl other p
  · exact hb.looksAs ho (hu home ho) hm hn

end Tree

namespace AtomicWrite

variable {w : AtomicWrite} {tree t : Tree} {root near : Path} {home : Location} {m n : Name}
  {phase : WritePhase} {time : Instant}

/-- **Past its turning point a write looks as at its end.** -/
theorem Turned.looksAs (h : w.Turned tree near root home m n time phase t)
    (hfolder : w.target.folder = root) (ho : tree.Opens root home)
    (hv : tree.get? (m :: home) = none) (hu : tree.Unpointed home m)
    (hm : Documents.listedName? m = none) (hn : m ≠ n) :
    t.LooksAs w.target (tree.place home n (w.published time tree)) := by
  cases h.after with
  | published => exact .refl _ _
  | linked hnone =>
    rw [Tree.place_vacant hnone]
    have hbase : tree.Besides home n (tree.attach home n (w.published time tree)) :=
      .attach ho.directory hnone _
    have hover : (tree.attach home n (w.published time tree)).Besides home m
        ((tree.attach home m (w.published time tree)).attach home n (w.published time tree)) := by
      refine ⟨⟨⟨tree.freshId, w.content, time⟩, ?_⟩, ?_⟩
      · rw [get?_linked ho hv hnone hn, if_neg (by simp [hn]), get?_hidden ho.directory hv,
          if_pos rfl]
        rfl
      · exact Tree.detach_attach_attach ho.directory hv hnone hn (by simp [published])
    apply hover.looksAs _ (hbase.unpointed hu) hm
    · rw [h.target, Path.name?_child]
      intro he
      exact hn (Option.some.inj he).symm
    · rw [hfolder]
      exact opens_hidden ho hnone time

/-- At its end the target reads as the content, exactly if its directory can still be reached. -/
theorem Turned.readBytes_iff (h : w.Turned tree near root home m n time phase t)
    (ho : tree.Opens root home) :
    (tree.place home n (w.published time tree)).readBytes w.target = .ok w.content ↔
      tree.OpensWithout root home n := by
  have hn := ne_directory_of_hindrance? h.free
  have hr : root.refusal? n = none :=
    (Option.or_eq_none_iff.1 (Option.or_eq_none_iff.1 h.free).1).2
  rw [h.target]
  by_cases hw : tree.OpensWithout root home n
  · rw [published, Tree.readBytes_place ho.directory hn hr hw]
    simp [hw]
  · rw [published, Tree.readBytes_place_blocked ho hn hr hw]
    simp [hw]

end AtomicWrite

namespace Host

/-- Nobody uses the next hidden name for what the target is written by. -/
structure Unused (host : Host) (target : Path) : Prop where
  free : ∀ dir, host.tree.get? (host.hidden :: dir) = none
  /-- No link leads to the hidden file, or past it. -/
  unpointed : ∀ home, host.tree.Opens target.folder home → host.tree.Unpointed home host.hidden
  /-- The target is another file. -/
  other : target.name? ≠ some host.hidden

theorem listedName?_hidden (host : Host) : Documents.listedName? host.hidden = none := by
  unfold Documents.listedName?
  rw [host.hidden_eq, Utf8.decode?_encode]
  apply if_pos
  rw [String.toList_ofList]
  rfl

variable {host : Host}

theorem tree_of_atomic {near root : Path} {home : Location} {n : Name} {w : AtomicWrite}
    {time : Instant} {t : Tree} {m : Name}
    (h : w.Turned host.tree near root home m n time (.done (.ok ())) t) :
    t = host.tree.place home n (w.published time host.tree) := by
  cases h.after
  rfl

/-- What is to be seen of a write to `target` while it is done, point by point. It ends, with no
hidden name left. If it fails, its target and all listings look the same throughout, and the tree is
the one that it found. If it succeeds there is a first point at which they look as at the end, and
all points from there on look so; and at the end the target reads as the content, exactly if the way
to its directory does without the entry that was replaced. -/
def WritesAtomically (host : Host) (target : Path) (content : Bytes) (mode : WriteMode)
    (moves : Nat → Nat × Instant) : Prop :=
  let point := (host.prepare target content mode).course moves host.tree
  ∃ last outcome,
    (∀ i, last ≤ i → point i = (.done outcome, (point last).2)) ∧
    (∀ dir, (point last).2.get? (host.hidden :: dir) = none) ∧
    (∀ e, outcome = .error e →
      (point last).2 = host.tree ∧ ∀ i, (point i).2.LooksAs target host.tree) ∧
    (outcome = .ok () → ∃ home n switch, target = target.folder.child n ∧
      host.tree.Opens target.folder home ∧ switch ≤ last ∧
      (∀ i, i < switch → (point i).2.LooksAs target host.tree) ∧
      (∀ i, switch ≤ i → (point i).2.LooksAs target (point last).2) ∧
      ((point last).2.readBytes target = .ok content ↔
        host.tree.OpensWithout target.folder home n))

/-- **At every point a write looks as before it or as at its end, with one switch between.** -/
theorem atomic_course (host : Host) (b content : Bytes) (mode : WriteMode)
    (moves : Nat → Nat × Instant) (h : host.Unused (.ofBytes b)) :
    host.WritesAtomically (.ofBytes b) content mode moves := by
  unfold WritesAtomically
  generalize hb : Path.ofBytes b = target at h ⊢
  intro point
  have htemp : (host.prepare target content mode).temp = target.parent.child host.hidden := rfl
  have hnear : target.parent.Alike target.folder := target.alike_parent
  have hspares : host.tree.Spares target.folder host.hidden := fun home _ => h.free home
  have hne : ∀ n, target = target.folder.child n → host.hidden ≠ n := by
    intro n ht hn
    apply h.other
    rw [ht, Path.name?_child, hn]
  have hchild : ∀ t after, (host.prepare target content mode).publish t = .ok after →
      ∃ n, target = target.folder.child n :=
    fun t after hp => AtomicWrite.exists_child_of_publish_ok hb.symm hp
  have hends : ∃ outcome, (point (content.length + 4)).1 = .done outcome :=
    AtomicWrite.course_ends rfl
  obtain ⟨outcome, hlast⟩ := hends
  have hlooks : ∀ {i}, host.tree.Veiled target.folder host.hidden (point i).2 →
      (point i).2.LooksAs target host.tree :=
    fun hv => hv.looksAs h.unpointed host.listedName?_hidden h.other
  refine ⟨content.length + 4, outcome, fun i hi => AtomicWrite.course_of_done hlast hi, ?_⟩
  cases outcome with
  | error e =>
    obtain ⟨htree, hveiled⟩ :=
      AtomicWrite.course_error moves rfl htemp hnear hne hchild hspares hlast
    refine ⟨?_, ?_, ?_⟩
    · intro dir
      rw [show (point (content.length + 4)).2 = host.tree from htree]
      exact h.free dir
    · intro _ _
      exact ⟨htree, fun i => hlooks (hveiled i)⟩
    · intro hok
      cases hok
  | ok _ =>
    obtain ⟨home, n, time, switch, ho, hle, hbefore, hafter⟩ :=
      AtomicWrite.course_ok moves rfl htemp hnear hne hchild hspares hlast
    have hturned := hafter _ hle
    rw [hlast] at hturned
    have htree : (point (content.length + 4)).2 = _ := tree_of_atomic hturned
    have hn := hne n hturned.target
    refine ⟨?_, ?_, ?_⟩
    · intro dir
      rw [htree, Tree.get?_place _ ho.directory
        (AtomicWrite.ne_directory_of_hindrance? hturned.free), if_neg (by simp [hn])]
      exact h.free dir
    · intro e he
      cases he
    · intro _
      refine ⟨home, n, switch, hturned.target, ho, hle, fun i hi => hlooks (hbefore i hi), ?_, ?_⟩
      · intro i hi
        rw [htree]
        exact (hafter i hi).looksAs rfl ho (h.free home) (h.unpointed home ho)
          host.listedName?_hidden hn
      · rw [htree]
        exact hturned.readBytes_iff ho

/-- A directory with a file, and a link to it. -/
def readHost : Host :=
  ⟨((Tree.empty.attach [] [0x64] .directory).attach [[0x64]] [0x61] (.file ⟨0, [0x6F], 0⟩)).attach
    [[0x64]] [0x6C] (.link [0x61]), 0, 1, 0, fun _ => 0⟩

/-- The path of that file. -/
def readTarget : Bytes := [0x2F, 0x64, 0x2F, 0x61]

theorem unused_readHost : readHost.Unused (.ofBytes readTarget) where
  free := Tree.get?_of_names (by decide +kernel)
  unpointed _ _ := .of_ways (by decide +kernel)
  other := by decide +kernel

/-- Two bytes are written one at a time, and read one byte and then two. -/
theorem atomic_course_read :
    let target := Path.ofBytes readTarget
    let point := (readHost.prepare target [0x78, 0x79] .replace).course (fun _ => (1, 7))
      readHost.tree
    readHost.Unused target ∧
      (point 3).2.readBytes target = .ok [0x6F] ∧ (point 4).2.readBytes target = .ok [0x78, 0x79] ∧
      readHost.WritesAtomically target [0x78, 0x79] .replace (fun _ => (1, 7)) :=
  ⟨unused_readHost, by decide +kernel, by decide +kernel,
    atomic_course readHost readTarget [0x78, 0x79] .replace _ unused_readHost⟩

/-- A directory with a link that leads back to it. -/
def roundHost : Host :=
  ⟨(Tree.empty.attach [] [0x64] .directory).attach [[0x64]] [0x6C] (.link [0x2E]), 0, 1, 0,
    fun _ => 0⟩

/-- A directory with a link that leads past the next hidden name. -/
def pastHost : Host :=
  ⟨(Tree.empty.attach [] [0x64] .directory).attach [[0x64]] [0x6C]
    (.link (hiddenName 1 0 ++ [0x2F, 0x78])), 0, 1, 0, fun _ => 0⟩

/-- **A target can read as neither the old nor the new**: where its directory is reached through the
entry that is replaced; where a link leads past the hidden file; and where the target itself is
called like the hidden file. In each case the hidden name is free. -/
theorem torn_reads :
    (let target := Path.ofBytes [0x2F, 0x64, 0x2F, 0x6C, 0x2F, 0x6C]
      let point := (roundHost.prepare target [0x78] .replace).course (fun _ => (1, 0))
        roundHost.tree
      roundHost.Unused target ∧ (point 4).1 = .done (.ok ()) ∧
        roundHost.tree.readBytes target = .error .isDirectory ∧
        (point 4).2.readBytes target = .error .notDirectory) ∧
    (let target := Path.ofBytes [0x2F, 0x64, 0x2F, 0x6C]
      let point := (pastHost.prepare target [0x78] .replace).course (fun _ => (1, 0)) pastHost.tree
      (∀ dir, pastHost.tree.get? (pastHost.hidden :: dir) = none) ∧
        pastHost.tree.readBytes target = .error .absent ∧
        (point 1).2.readBytes target = .error .notDirectory) ∧
    (let target := (Path.winding 0).child fresh.hidden
      let point := (fresh.prepare target [0x78, 0x79] .replace).course (fun _ => (1, 0)) fresh.tree
      (∀ dir, fresh.tree.get? (fresh.hidden :: dir) = none) ∧
        fresh.tree.readBytes target = .error .absent ∧
        (point 2).2.readBytes target = .ok [0x78]) := by
  refine ⟨⟨?_, rfl, by decide +kernel, by decide +kernel⟩,
    ⟨Tree.get?_of_names (by decide +kernel), by decide +kernel, by decide +kernel⟩,
    Tree.get?_of_names (by decide +kernel), by decide +kernel, by decide +kernel⟩
  constructor
  case free => exact Tree.get?_of_names (by decide +kernel)
  case unpointed => exact fun _ _ => .of_ways (by decide +kernel)
  case other => decide +kernel

end Host
end LineStore
