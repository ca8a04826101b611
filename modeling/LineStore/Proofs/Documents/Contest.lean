import Mathlib.Logic.Function.Basic
import LineStore.Proofs.Documents.Putting
import LineStore.Proofs.Files.Respects

/-!
# Many puts to one document

Any number of puts that may not overwrite write to one document at once, step by step and in any
order, and others are about as well, who leave the document and the hidden files alone. Each put has
its own claim on the tree (`Holds`): what its hidden file contains, that the file has no other name,
and, once it is linked, that the document holds its content. A claim outlives whatever `Respects` it,
and **a step of one put respects the claims of all others** (`Holds.step`). So one put at most makes
its link (`Sound`), and its content is what the document holds.
-/

namespace LineStore.Documents

/-! ## What one put holds -/

namespace Request

/-- The document is there, with the put's content. -/
structure Stored (r : Request) (store : Documents) (home : Location) (tree : Tree) : Prop where
  sound : store.root.refusal? (fileName r.name) = none
  file : ∃ file, tree.get? (fileName r.name :: home) = some (.file file) ∧
    file.bytes = Utf8.encode r.content

/-- The put's hidden file is as far as the put is. -/
def Hides (r : Request) (store : Documents) (home : Location) (tree : Tree) : Putting → Prop
  | .looking | .writing .opening => tree.Lone (r.hidden :: home)
  | .writing (.writing id rest) => store.root.trim.refusal? r.hidden = none ∧
    ∃ written, written ++ rest = Utf8.encode r.content ∧ tree.Holding (r.hidden :: home) id written
  | .writing .publishing => store.root.trim.refusal? r.hidden = none ∧
    ∃ id, tree.Holding (r.hidden :: home) id (Utf8.encode r.content)
  | .writing (.clearing _) =>
    ∀ node, tree.get? (r.hidden :: home) = some node → ∃ file, node = .file file
  | .writing (.done _) | .answered _ => True

/-- What a put can rely on, however far it has come. -/
structure Holds (r : Request) (store : Documents) (home : Location) (tree : Tree)
    (putting : Putting) : Prop where
  hides : r.Hides store home tree putting
  stored : r.Linked putting → r.Stored store home tree

variable {r : Request} {store : Documents} {home : Location} {tree after : Tree}
  {putting : Putting} {chunk : Nat} {now : Instant}

theorem Holds.of_respects (h : r.Holds store home tree putting)
    (hr : tree.Respects home (fileName r.name) r.hidden after) :
    r.Holds store home after putting := by
  constructor
  case stored =>
    intro hl
    obtain ⟨hsound, file, hg, hb⟩ := h.stored hl
    exact ⟨hsound, file, hr.kept _ hg, hb⟩
  case hides =>
    have hh := h.hides
    cases putting with
    | looking => exact hr.lone hh
    | answered answer => trivial
    | writing phase =>
      cases phase with
      | opening => exact hr.lone hh
      | writing id rest =>
        obtain ⟨hm, written, hw, hf⟩ := hh
        exact ⟨hm, written, hw, hr.holding hf⟩
      | publishing =>
        obtain ⟨hm, id, hf⟩ := hh
        exact ⟨hm, id, hr.holding hf⟩
      | clearing outcome =>
        intro node hg
        rw [hr.hidden] at hg
        exact hh node hg
      | done outcome => trivial

/-! ## One step of one put -/

/-- What a step is to leave: the put's own claim, the way to the root, and what others claim. -/
structure Advances (r : Request) (store : Documents) (home : Location) (tree : Tree)
    (next : Putting × Tree) : Prop where
  hides : r.Hides store home next.2 next.1
  stored : r.Linked next.1 → r.Stored store home next.2
  opens : next.2.Opens store.root home
  respects : ∀ m, m ≠ r.hidden → m ≠ fileName r.name →
    tree.Respects home (fileName r.name) m next.2

theorem Advances.holds {next : Putting × Tree} (h : r.Advances store home tree next) :
    r.Holds store home next.2 next.1 := ⟨h.hides, h.stored⟩

/-- A step that changes nothing, and links nothing. -/
theorem Advances.of_same {next : Putting} (ho : tree.Opens store.root home)
    (hh : r.Hides store home tree next) (hl : ¬ r.Linked next) :
    r.Advances store home tree (next, tree) where
  hides := hh
  stored h := absurd h hl
  opens := ho
  respects _ _ _ := .refl tree home _ _

theorem hides_afterBytes {id : Nat} {written rest : Bytes}
    (hm : store.root.trim.refusal? r.hidden = none) (hw : written ++ rest = Utf8.encode r.content)
    (h : tree.Holding (r.hidden :: home) id written) :
    r.Hides store home tree (r.resume (AtomicWrite.afterBytes id rest)) := by
  unfold AtomicWrite.afterBytes
  split
  · rename_i hr
    rw [hr, List.append_nil] at hw
    exact ⟨hm, id, hw ▸ h⟩
  · exact ⟨hm, written, hw, h⟩

/-- From the file's bytes on, a step that writes touches no file but the put's own. -/
theorem Advances.of_setFile {id : Nat} {bytes written rest : Bytes}
    (ho : tree.Opens store.root home) (hm : store.root.trim.refusal? r.hidden = none)
    (hw : written ++ rest = Utf8.encode r.content)
    (honly : ∀ loc f, tree.get? loc = some (.file f) → f.id = id → loc = r.hidden :: home)
    (h : (tree.setFile id bytes now).Holding (r.hidden :: home) id written) :
    r.Advances store home tree
      (r.resume (AtomicWrite.afterBytes id rest), tree.setFile id bytes now) where
  hides := hides_afterBytes hm hw h
  stored hl := absurd hl (not_linked_afterBytes _ _)
  opens := ho.setFile
  respects _ hne _ := .setFile honly (fileName_ne_hidden r r.name) hne

theorem advances_opening (ho : tree.Opens store.root home)
    (h : r.Hides store home tree (.writing .opening)) :
    r.Advances store home tree (r.step store chunk now tree (.writing .opening)) := by
  rw [step, AtomicWrite.advance]
  dsimp only
  rw [write_temp]
  cases hc : tree.create (store.root.trim.child r.hidden) now with
  | error e =>
    exact .of_same ho (fun _ hg => h.isFile hg) (by rintro ⟨⟩)
  | ok made =>
    obtain ⟨id, after⟩ := made
    obtain ⟨hm, ⟨hv, rfl, rfl⟩ | ⟨file, hg, rfl, rfl⟩⟩ :=
      (ho.alike store.root.alike_trim).create_lone h hc
    · -- The file is new, so it is no file that anybody else has.
      constructor
      case hides => exact hides_afterBytes hm rfl (.attach ho.directory hv)
      case stored => exact fun hl => absurd hl (not_linked_afterBytes _ _)
      case opens => exact ho.attach hv
      case respects =>
        intro m hne _
        exact .attach ho.directory hv hne fun other hother => AtomicWrite.freshId_ne hother
    · obtain ⟨_, he, honly⟩ := h _ hg
      cases he
      exact .of_setFile ho hm rfl honly (.setFile hg honly)

theorem advances_writing {id : Nat} {rest : Bytes} (ho : tree.Opens store.root home)
    (h : r.Hides store home tree (.writing (.writing id rest))) :
    r.Advances store home tree (r.step store chunk now tree (.writing (.writing id rest))) := by
  obtain ⟨hm, written, hw, hf⟩ := h
  apply Advances.of_setFile ho hm _ hf.only hf.append
  rw [List.append_assoc, List.take_append_drop]
  exact hw

/-- The target gets the hidden file, and keeps what it has if it has anything. -/
theorem advances_publishing (ho : tree.Opens store.root home)
    (h : r.Hides store home tree (.writing .publishing)) :
    r.Advances store home tree (r.step store chunk now tree (.writing .publishing)) := by
  obtain ⟨hm, id, hf⟩ := h
  obtain ⟨time, hg⟩ := hf.file
  have hpublish := r.publish_write store tree
  rw [step]
  dsimp only
  cases hl : tree.link (store.root.trim.child r.hidden) (store.root.child (fileName r.name)) with
  | error e =>
    rw [AtomicWrite.advance_publishing_error (hpublish.trans hl)]
    exact .of_same ho (fun _ hn => hf.lone.isFile hn) (by rintro ⟨⟩)
  | ok after =>
    rw [AtomicWrite.advance_publishing_ok (hpublish.trans hl)]
    obtain ⟨hr, hv, rfl⟩ := ho.link_ok (ho.alike store.root.alike_trim) hm hg hl
    have hget : ∀ loc, (tree.attach home (fileName r.name)
        (.file ⟨id, Utf8.encode r.content, time⟩)).get? loc =
        if loc = fileName r.name :: home then some (.file ⟨id, Utf8.encode r.content, time⟩)
        else tree.get? loc := Tree.get?_attach ho.directory hv
    constructor
    case hides =>
      intro node hn
      dsimp only at hn
      rw [hget, if_neg (by simp [(fileName_ne_hidden r r.name).symm])] at hn
      exact hf.lone.isFile hn
    case stored => exact fun _ => ⟨hr, _, by rw [hget, if_pos rfl], rfl⟩
    case opens => exact ho.attach hv
    case respects =>
      intro m hne hnn
      apply Tree.Respects.attach ho.directory hv hnn
      rintro other hother he
      have hloc := hf.only _ _ hother he.symm
      exact hne (List.cons.inj hloc).1

theorem advances_clearing {outcome : Except FileError Unit} (ho : tree.Opens store.root home)
    (h : r.Holds store home tree (.writing (.clearing outcome))) :
    r.Advances store home tree (r.step store chunk now tree (.writing (.clearing outcome))) := by
  have hstored : r.Linked (r.resume (.done outcome)) → r.Stored store home tree := by
    intro hl
    obtain rfl := ok_of_linked_done hl
    exact h.stored .clearing
  show r.Advances store home tree (r.resume (.done outcome), (r.write store).clear tree)
  rw [AtomicWrite.clear, write_temp]
  cases hu : tree.unlink (store.root.trim.child r.hidden) with
  | error e => exact ⟨trivial, hstored, ho, fun m _ _ => .refl tree home _ m⟩
  | ok after =>
    obtain ⟨node, hg, hf, rfl⟩ := (ho.alike store.root.alike_trim).unlink_ok hu
    obtain ⟨file, rfl⟩ := h.hides node hg
    have hd : tree.get? (r.hidden :: home) ≠ some .directory := by
      rw [hg]
      simp
    constructor
    case hides => trivial
    case opens => exact ho.detach hg
    case respects => exact fun m hne _ => .detach hd (fileName_ne_hidden r r.name) hne
    case stored =>
      intro hl
      obtain ⟨hsound, file, hn, hb⟩ := hstored hl
      refine ⟨hsound, file, ?_, hb⟩
      dsimp only
      rw [Tree.get?_detach hd, if_neg (by simp [fileName_ne_hidden r r.name])]
      exact hn

/-- **A step of a put keeps its own claim, and respects those of all others.** -/
theorem Holds.step (h : r.Holds store home tree putting) (ho : tree.Opens store.root home)
    (chunk : Nat) (now : Instant) :
    r.Advances store home tree (r.step store chunk now tree putting) := by
  cases putting with
  | looking =>
    rw [Request.step]
    rcases look_cases r store tree with ⟨e, he⟩ | hw
    · rw [he]
      exact .of_same ho trivial (by rintro ⟨⟩)
    · rw [hw]
      exact .of_same ho h.hides (by rintro ⟨⟩)
  | answered answer => exact ⟨trivial, h.stored, ho, fun m _ _ => .refl tree home _ m⟩
  | writing phase =>
    cases phase with
    | opening => exact advances_opening ho h.hides
    | writing id rest => exact advances_writing ho h.hides
    | publishing => exact advances_publishing ho h.hides
    | clearing outcome => exact advances_clearing ho h
    | done outcome =>
      refine ⟨trivial, ?_, ho, fun m _ _ => .refl tree home _ m⟩
      intro hl
      obtain rfl := ok_of_linked_done hl
      exact h.stored .done

/-- Where there is no directory, a put makes no link. -/
theorem shut_step (h : tree.Shut store.root) (hl : ¬ r.Linked putting) (chunk : Nat)
    (now : Instant) : (r.step store chunk now tree putting).2.Shut store.root ∧
      ¬ r.Linked (r.step store chunk now tree putting).1 := by
  have hshut : tree.Shut store.root.trim := h.alike store.root.alike_trim
  constructor
  case left =>
    have hw : (r.write store).temp = store.root.trim.child r.hidden := write_temp r store
    cases putting with
    | looking => exact h
    | answered answer => exact h
    | writing phase =>
      cases phase with
      | opening =>
        rw [step, AtomicWrite.advance]
        dsimp only
        rw [hw]
        rcases hshut.create r.hidden now with ⟨e, he⟩ | hc
        · rw [he]
          exact h
        · rw [hc]
          exact h
      | writing id rest => exact h.setFile
      | publishing =>
        rw [step]
        dsimp only
        obtain ⟨e, he⟩ := AtomicWrite.publish_shut hshut hw
        rw [AtomicWrite.advance_publishing_error he]
        exact h
      | clearing outcome =>
        show ((r.write store).clear tree).Shut store.root
        rw [AtomicWrite.clear_shut hshut hw]
        exact h
      | done outcome => exact h
  case right =>
    intro hstep
    rcases linked_of_step hstep with hp | ⟨-, hlink⟩
    · exact hl hp
    · obtain ⟨e, he⟩ := hshut.link r.hidden (store.root.child (fileName r.name))
      rw [he] at hlink
      cases hlink

end Request

/-! ## All the puts -/

/-- Puts to one document, each of which has a hidden name of its own. -/
structure Contest (ι : Type) where
  store : Documents
  file : Name
  request : ι → Request
  same : ∀ i, fileName (request i).name = file
  apart : ∀ i j, (request i).process = (request j).process →
    (request i).writes = (request j).writes → i = j

namespace Contest

variable {ι : Type} {c : Contest ι} {i j : ι} {tree after : Tree}
  {puttings : ι → Putting} {home : Location} {chunk : Nat} {now : Instant}

theorem hidden_ne (h : i ≠ j) : (c.request j).hidden ≠ (c.request i).hidden := by
  intro he
  obtain ⟨hp, hw⟩ := Host.hiddenName_inj he
  exact h (c.apart i j hp.symm hw.symm)

/-- Others let the puts be. They do not move the root, do not remove or overwrite what stands under
the document's name, and leave the hidden files alone. -/
structure Lets (c : Contest ι) (tree after : Tree) : Prop where
  opens : ∀ home, after.Opens c.store.root home ↔ tree.Opens c.store.root home
  respects : ∀ home, tree.Opens c.store.root home →
    ∀ i, tree.Respects home c.file (c.request i).hidden after

/-- Each put holds its own, and one at most has made its link. -/
structure Sound (c : Contest ι) (home : Location) (state : Tree × (ι → Putting)) : Prop where
  opens : state.1.Opens c.store.root home
  holds : ∀ i, (c.request i).Holds c.store home state.1 (state.2 i)
  one : ∀ i j, (c.request i).Linked (state.2 i) → (c.request j).Linked (state.2 j) → i = j

theorem Sound.start (ho : tree.Opens c.store.root home)
    (h : ∀ i, tree.Lone ((c.request i).hidden :: home)) :
    c.Sound home (tree, fun _ => .looking) where
  opens := ho
  holds i := ⟨h i, by rintro ⟨⟩⟩
  one _ _ hi _ := by cases hi

theorem Sound.meanwhile (h : c.Sound home (tree, puttings)) (hl : c.Lets tree after) :
    c.Sound home (after, puttings) where
  opens := (hl.opens home).2 h.opens
  holds i := by
    apply (h.holds i).of_respects
    rw [c.same i]
    exact hl.respects home h.opens i
  one := h.one

/-- Where a put has made its link, no other put makes one. -/
theorem Sound.linked_before (h : c.Sound home (tree, puttings))
    (hj : (c.request j).Linked (puttings j))
    (hi : (c.request i).Linked ((c.request i).step c.store chunk now tree (puttings i)).1) :
    (c.request i).Linked (puttings i) := by
  rcases Request.linked_of_step hi with hl | ⟨-, hlink⟩
  · exact hl
  · obtain ⟨hr, file, hg, -⟩ := (h.holds j).stored hj
    obtain ⟨dir, -, -, hv, -⟩ := Tree.vacant_of_link_ok hlink
    rw [c.same j, ← c.same i] at hr hg
    rw [h.opens.locate_found hr hg (by simp)] at hv
    cases hv

variable [DecidableEq ι]

/-- One of the puts goes one step. -/
def turn (c : Contest ι) (i : ι) (chunk : Nat) (now : Instant) :
    Tree × (ι → Putting) → Tree × (ι → Putting)
  | (tree, puttings) =>
    (((c.request i).step c.store chunk now tree (puttings i)).2,
      Function.update puttings i ((c.request i).step c.store chunk now tree (puttings i)).1)

@[simp] theorem turn_self : (c.turn i chunk now (tree, puttings)).2 i =
    ((c.request i).step c.store chunk now tree (puttings i)).1 := Function.update_self ..

theorem turn_of_ne (h : j ≠ i) : (c.turn i chunk now (tree, puttings)).2 j = puttings j :=
  Function.update_of_ne h ..

/-- What can come of the puts, in any order of their steps. -/
inductive Interleaved (c : Contest ι) : Tree × (ι → Putting) → Prop
  | start {tree : Tree} (h : ∀ i home, tree.Opens c.store.root home →
      tree.Lone ((c.request i).hidden :: home)) : Interleaved c (tree, fun _ => .looking)
  | turn {state : Tree × (ι → Putting)} (h : Interleaved c state) (i : ι) (chunk : Nat)
      (now : Instant) : Interleaved c (c.turn i chunk now state)
  | meanwhile {tree after : Tree} {puttings : ι → Putting} (h : Interleaved c (tree, puttings))
      (hl : c.Lets tree after) : Interleaved c (after, puttings)

theorem Sound.turn {state : Tree × (ι → Putting)} (h : c.Sound home state) (i : ι) (chunk : Nat)
    (now : Instant) : c.Sound home (c.turn i chunk now state) := by
  obtain ⟨tree, puttings⟩ := state
  have hadvances := (h.holds i).step h.opens chunk now
  constructor
  case opens => exact hadvances.opens
  case holds =>
    intro j
    by_cases hj : j = i
    · subst hj
      rw [turn_self]
      exact hadvances.holds
    · rw [turn_of_ne hj]
      apply (h.holds j).of_respects
      rw [c.same j, ← c.same i]
      apply hadvances.respects _ (hidden_ne (Ne.symm hj))
      exact (Request.fileName_ne_hidden (c.request j) (c.request i).name).symm
  case one =>
    have other : ∀ j k, j ≠ i →
        (c.request j).Linked ((c.turn i chunk now (tree, puttings)).2 j) →
        (c.request k).Linked ((c.turn i chunk now (tree, puttings)).2 k) → j = k := by
      intro j k hj hlj hlk
      rw [turn_of_ne hj] at hlj
      apply h.one j k hlj
      by_cases hk : k = i
      · subst hk
        rw [turn_self] at hlk
        exact h.linked_before hlj hlk
      · rw [turn_of_ne hk] at hlk
        exact hlk
    intro j k hlj hlk
    by_cases hj : j = i
    · by_cases hk : k = i
      · rw [hj, hk]
      · exact (other k j hk hlk hlj).symm
    · exact other j k hj hlj hlk

theorem proper_of_interleaved {state : Tree × (ι → Putting)} (h : c.Interleaved state) (i : ι) :
    (c.request i).Proper (state.2 i) := by
  induction h with
  | start _ => trivial
  | @turn state _ k chunk now ih =>
    obtain ⟨tree, puttings⟩ := state
    by_cases hk : i = k
    · subst hk
      rw [turn_self]
      exact ih.step
    · rw [turn_of_ne hk]
      exact ih
  | meanwhile _ _ ih => exact ih

/-- **Whatever the order, the puts do not get in each other's way**, if there is a directory for
them; and if there is none, nothing comes of any. -/
theorem sound_of_interleaved {state : Tree × (ι → Putting)} (h : c.Interleaved state) :
    (∃ home, c.Sound home state) ∨
      state.1.Shut c.store.root ∧ ∀ i, ¬ (c.request i).Linked (state.2 i) := by
  induction h with
  | @start tree h =>
    by_cases ho : ∃ home, tree.Opens c.store.root home
    · obtain ⟨home, ho⟩ := ho
      exact .inl ⟨home, .start ho fun i => h i home ho⟩
    · exact .inr ⟨fun home hh => ho ⟨home, hh⟩, fun i hl => by cases hl⟩
  | @turn state _ i chunk now ih =>
    rcases ih with ⟨home, hs⟩ | ⟨hshut, hnone⟩
    · exact .inl ⟨home, hs.turn i chunk now⟩
    · obtain ⟨tree, puttings⟩ := state
      have hstep := Request.shut_step hshut (hnone i) chunk now
      refine .inr ⟨hstep.1, ?_⟩
      intro j
      by_cases hj : j = i
      · subst hj
        rw [turn_self]
        exact hstep.2
      · rw [turn_of_ne hj]
        exact hnone j
  | meanwhile _ hl ih =>
    rcases ih with ⟨home, hs⟩ | ⟨hshut, hnone⟩
    · exact .inl ⟨home, hs.meanwhile hl⟩
    · exact .inr ⟨fun home ho => hshut home ((hl.opens home).1 ho), hnone⟩

end Contest
end LineStore.Documents
