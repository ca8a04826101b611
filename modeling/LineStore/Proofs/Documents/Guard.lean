import LineStore.Proofs.Documents.Contest

/-!
# The guard against overwriting

That a put may not overwrite is worth something because others are about, and may come between any
two of its steps. `Guarded` is what one put is worth whatever it finds, `Decided` is what comes of
many puts to one document, and `overwrite_guarded` says that it is always so. None of it rests on
the look at the beginning, which follows links, and whose finding may be out of date when the link is
made: making the link is what decides.
-/

namespace LineStore.Documents

/-- What the guard of a put is worth, whatever the put finds at each of its steps. -/
structure Request.Guarded (r : Request) (store : Documents) (found : Nat → Tree)
    (moves : Nat → Nat × Instant) : Prop where
  ends : ∃ answer,
    r.course store found moves ((Utf8.encode r.content).length + 5) = .answered answer
  /-- A put that succeeds has made its link where nothing stood. -/
  vacant : ∀ j text, r.course store found moves j = .answered (.ok text) → text = r.content ∧
    ∃ i, i < j ∧ r.course store found moves i = .writing .publishing ∧
      ∃ dir loc node,
        (found i).locate .itself (store.root.child (fileName r.name)) =
          .ok (.vacant dir (fileName r.name)) ∧
        (found i).locate .itself (store.root.trim.child r.hidden) = .ok (.found loc node) ∧
        r.leaves store found moves i = (found i).attach dir (fileName r.name) node
  /-- No step touches what stands at the target. -/
  kept : ∀ i loc node, r.Spared store (found i) (r.course store found moves i) →
    (found i).locate .itself (store.root.child (fileName r.name)) = .ok (.found loc node) →
      (r.leaves store found moves i).get? loc = some node
  /-- Nor does it touch what a link at the target leads to, or anything else but the hidden file. -/
  others : ∀ i loc node, r.Spared store (found i) (r.course store found moves i) →
    (found i).get? loc = some node → (∀ dir, loc ≠ r.hidden :: dir) →
      (r.leaves store found moves i).get? loc = some node
  /-- Whatever stands at the target when the link is to be made, the answer says so. -/
  taken : ∀ i j loc node, r.course store found moves i = .writing .publishing →
    r.Spared store (found i) (r.course store found moves i) →
    (found i).locate .itself (store.root.child (fileName r.name)) = .ok (.found loc node) →
      i + 2 ≤ j → r.course store found moves j = .answered (.error (.alreadyExists r.name))

theorem Request.guarded (r : Request) (store : Documents) (found : Nat → Tree)
    (moves : Nat → Nat × Instant) : r.Guarded store found moves := by
  constructor
  case ends => exact course_ends r store found moves
  case vacant =>
    intro j text h
    have hp := proper_course r store found moves j
    rw [h] at hp
    have hl := linked_of_answered hp
    rw [← h] at hl
    exact ⟨hp.2, vacant_of_linked hl⟩
  case others => exact fun i loc node hs hg hm => step_keeps hs hg hm
  case kept =>
    intro i loc node hs hf
    obtain ⟨home, -, rfl, hg, -⟩ := Tree.opens_of_locate hf
    apply step_keeps hs hg
    intro dir he
    exact fileName_ne_hidden r r.name (List.cons.inj he).1
  case taken => exact fun i j loc node hp hs hf hj => answer_of_taken hp hs hf hj

namespace Contest

variable {ι : Type} {c : Contest ι} {state : Tree × (ι → Putting)} {i : ι} {home : Location}

/-- What comes of puts to one document: one succeeds at most, and its text is the document. -/
structure Decided (c : Contest ι) (state : Tree × (ι → Putting)) : Prop where
  once : ∀ i j text other, state.2 i = .answered (.ok text) → state.2 j = .answered (.ok other) →
    i = j
  text : ∀ i text, state.2 i = .answered (.ok text) →
    Identifier.isDocumentName (c.request i).name = true ∧ text = (c.request i).content ∧
      ∀ name, Identifier.isDocumentName name = true → fileName name = c.file →
        c.store.get name state.1 = .ok text

theorem Sound.get (h : c.Sound home state) (hl : (c.request i).Linked (state.2 i)) {name : String}
    (hn : Identifier.isDocumentName name = true) (hf : fileName name = c.file) :
    c.store.get name state.1 = .ok (c.request i).content := by
  obtain ⟨hr, file, hg, hb⟩ := (h.holds i).stored hl
  rw [c.same i] at hr hg
  have hk : Tree.Kept (some (c.request i).content) (state.1.get? (c.file :: home)) := by
    rw [hg]
    exact .file hb
  rw [Documents.get, path_eq hn, hf]
  dsimp only
  rw [h.opens.readText?_child hk, hr]

theorem decided_of_interleaved [DecidableEq ι] (h : c.Interleaved state) : c.Decided state := by
  have proper : ∀ {i text}, state.2 i = .answered (.ok text) →
      (c.request i).Proper (.answered (.ok text)) := fun hi => hi ▸ proper_of_interleaved h _
  have linked : ∀ {i text}, state.2 i = .answered (.ok text) →
      (c.request i).Linked (state.2 i) := fun hi => by
    rw [hi]
    exact Request.linked_of_answered (proper hi)
  rcases sound_of_interleaved h with ⟨home, hs⟩ | ⟨-, hnone⟩
  · constructor
    case once => exact fun i j _ _ hi hj => hs.one i j (linked hi) (linked hj)
    case text =>
      intro i text hi
      obtain ⟨hn, rfl⟩ := proper hi
      exact ⟨hn, rfl, fun name => hs.get (linked hi)⟩
  · constructor
    case once => exact fun i _ _ _ hi => absurd (linked hi) (hnone i)
    case text => exact fun i _ hi => absurd (linked hi) (hnone i)

end Contest

/-- **The guard holds, whoever is about.** A put with nobody else about goes through the same steps
(`Request.put_eq_alone`). -/
theorem overwrite_guarded :
    (∀ (r : Request) (store : Documents) (found : Nat → Tree) (moves : Nat → Nat × Instant),
      r.Guarded store found moves) ∧
    ∀ (ι : Type) [DecidableEq ι] (c : Contest ι) (state : Tree × (ι → Putting)),
      c.Interleaved state → c.Decided state :=
  ⟨Request.guarded, fun _ _ _ _ h => Contest.decided_of_interleaved h⟩

/-! ## A link in the way, and a race -/

def obstructedPut : Request := ⟨"a", "x", 1, 0⟩

/-- An empty directory, then one with the hidden file; and before the link is made, somebody leaves a
link that leads nowhere where the document is to be. -/
def obstructed (i : Nat) : Tree :=
  let hidden bytes := Host.fresh.tree.attach [[0x64]] obstructedPut.hidden (.file ⟨0, bytes, 0⟩)
  if i ≤ 1 then Host.fresh.tree
  else if i = 2 then hidden []
  else (hidden [0x78]).attach [[0x64]] (fileName "a") (.link [0x7A])

/-- Two puts to one document, under its two names. -/
def race : Contest Bool where
  store := ⟨.winding 0⟩
  file := fileName "a"
  request long := if long then ⟨"a.txt", "y", 1, 1⟩ else ⟨"a", "x", 1, 0⟩
  same := by decide +kernel
  apart := by decide +kernel

/-- Both look before either links. -/
def raced : Tree × (Bool → Putting) :=
  [true, false, true, false, true, false, false, true, false, true].foldl
    (fun state long => race.turn long 1 0 state) (Host.fresh.tree, fun _ => .looking)

theorem interleaved_raced : race.Interleaved raced := by
  have turns : ∀ (order : List Bool) {state : Tree × (Bool → Putting)}, race.Interleaved state →
      race.Interleaved (order.foldl (fun state long => race.turn long 1 0 state) state) := by
    intro order
    induction order with
    | nil => exact id
    | cons long rest ih => exact fun h => ih (h.turn long 1 0)
  apply turns
  exact .start fun i home _ => .of_vacant (Tree.get?_of_names (by cases i <;> decide +kernel) home)

theorem overwrite_guarded_raced :
    let store : Documents := ⟨.winding 0⟩
    let course := obstructedPut.course store obstructed fun _ => (1, 0)
    let loc : Location := [fileName "a", [0x64]]
    (course 3 = .writing .publishing ∧ obstructedPut.Spared store (obstructed 3) (course 3) ∧
      (obstructed 3).locate .itself (store.root.child (fileName "a")) =
        .ok (.found loc (.link [0x7A])) ∧
      (obstructedPut.leaves store obstructed (fun _ => (1, 0)) 3).get? loc = some (.link [0x7A]) ∧
      course 5 = .answered (.error (.alreadyExists "a"))) ∧
    race.Interleaved raced ∧ raced.2 false = .answered (.ok "x") ∧
      raced.2 true = .answered (.error (.alreadyExists "a.txt")) ∧
      race.store.get "a.txt" raced.1 = .ok "x" := by
  intro store course loc
  have hp : course 3 = .writing .publishing := by decide +kernel
  have hs : obstructedPut.Spared store (obstructed 3) (course 3) := by
    rw [hp]
    exact ⟨[obstructedPut.hidden, [0x64]], ⟨0, [0x78], 0⟩, by decide +kernel⟩
  have hf : (obstructed 3).locate .itself (store.root.child (fileName "a")) =
      .ok (.found loc (.link [0x7A])) := by decide +kernel
  have hg := overwrite_guarded.1 obstructedPut store obstructed fun _ => (1, 0)
  have hw : raced.2 false = .answered (.ok "x") := by decide +kernel
  obtain ⟨-, -, htext⟩ := (overwrite_guarded.2 Bool race raced interleaved_raced).text false "x" hw
  exact ⟨⟨hp, hs, hf, hg.kept 3 _ _ hs hf, hg.taken 3 5 _ _ hp hs hf (Nat.le_refl 5)⟩,
    interleaved_raced, hw, by decide +kernel, htext "a.txt" (by decide) (by decide +kernel)⟩

end LineStore.Documents
