import LineStore.Proofs.Files.Publish

/-!
# A file that nothing leads to

A hidden file stands beside the rest of the tree while a write is under way. Somebody who walks the
tree meets it only if a step of the walk is its name, or if a link on the walk leads to it, or past
it. `Asks` says that a walk comes to the free name, and `Unpointed` that no link does. A walk that
does not ask for the name goes as it would go without the file (`Besides.walk_eq`), to the end or to
the very same error.
-/

namespace LineStore
namespace Tree

variable {tree other : Tree} {home dir last : Location} {m n : Name} {links left : Nat}
  {steps rest : List Segment} {ending : Ending} {file : File}

/-! ## Walks that come to a free name -/

/-- On its way through the steps, the walk comes to the free name `m` in `home`. -/
def Asks (tree : Tree) (home : Location) (m : Name) (links : Nat) (dir : Location)
    (steps : List Segment) : Prop :=
  ∃ way, way <+: steps ∧ tree.walk .followed links dir way = .ok (.vacant home m)

/-- No link leads to the free name `m` in `home`, or past it. -/
def Unpointed (tree : Tree) (home : Location) (m : Name) : Prop :=
  ∀ n dir text links, tree.get? (n :: dir) = some (.link text) →
    ¬ tree.Asks home m links (if (Path.ofBytes text).absolute then [] else dir)
      (Path.ofBytes text).steps

theorem Asks.cons {step : Segment} {dir' : Location} (h : tree.Asks home m left dir' rest)
    (hw : ∀ way, tree.walk .followed links dir (step :: way) =
      tree.walk .followed left dir' way) : tree.Asks home m links dir (step :: rest) := by
  obtain ⟨way, hp, hv⟩ := h
  refine ⟨step :: way, List.cons_prefix_cons.2 ⟨rfl, hp⟩, ?_⟩
  rw [hw]
  exact hv

theorem Asks.stay {step : Segment} (hs : step.stays = true) (h : tree.Asks home m links dir rest) :
    tree.Asks home m links dir (step :: rest) :=
  h.cons fun _ => walk_stays hs

theorem Asks.up (h : tree.Asks home m links dir.tail rest) :
    tree.Asks home m links dir (.up :: rest) :=
  h.cons fun _ => walk_up

theorem Asks.enter (hn : n.length ≤ nameLimit) (hd : tree.get? (n :: dir) = some .directory)
    (h : tree.Asks home m links (n :: dir) rest) :
    tree.Asks home m links dir (.name n :: rest) := by
  apply h.cons
  intro way
  rw [walk_name, if_neg (by simp), if_neg (by omega), hd]

theorem Asks.free (hm : m.length ≤ nameLimit) (hv : tree.get? (m :: home) = none) :
    tree.Asks home m links home (.name m :: rest) := by
  refine ⟨[.name m], by simp, ?_⟩
  rw [walk_name, if_neg (by simp), if_neg (by omega), hv]
  rfl

/-- At a link nobody asks for the name before the link's own steps are done. -/
theorem Asks.hop {target : Bytes} (hu : tree.Unpointed home m) (hn : n.length ≤ nameLimit)
    (hl : tree.get? (n :: dir) = some (.link target))
    (ht : (Path.ofBytes target).isEmpty = false)
    (h : tree.Asks home m links (if (Path.ofBytes target).absolute then [] else dir)
      ((Path.ofBytes target).steps ++ rest)) :
    tree.Asks home m (links + 1) dir (.name n :: rest) := by
  obtain ⟨way, ⟨left, he⟩, hv⟩ := h
  rcases List.append_eq_append_iff.1 he with ⟨more, hp, -⟩ | ⟨more, rfl, hp⟩
  · exact absurd ⟨way, ⟨more, hp.symm⟩, hv⟩ (hu n dir target links hl)
  · refine ⟨.name n :: more, List.cons_prefix_cons.2 ⟨rfl, ⟨left, hp.symm⟩⟩, ?_⟩
    rw [walk_name, if_neg (by simp), if_neg (by omega), hl]
    dsimp only
    rw [if_neg (by simp), Tree.hop, ht, if_neg (by simp)]
    exact hv

/-- A walk that has only to stay ends where it is. -/
theorem walk_all_stays (h : ∀ s ∈ steps, s.stays = true) :
    tree.walk ending links dir steps = .ok (.found dir .directory) := by
  induction steps with
  | nil => exact walk_nil
  | cons step steps ih =>
    rw [walk_stays (h step List.mem_cons_self)]
    exact ih fun s hs => h s (List.mem_cons_of_mem _ hs)

/-- A walk whose last step is to stay does not end at a free name. -/
theorem walk_concat_ne_vacant {step : Segment} (hs : step.stays = true) :
    ∀ links dir steps, tree.walk .followed links dir (steps ++ [step]) ≠ .ok (.vacant home m) := by
  have more : ∀ steps : List Segment, steps ++ [step] ≠ [] := by simp
  apply walk_induction
  case done =>
    intro links dir h
    rw [List.nil_append, walk_stays hs, walk_nil] at h
    cases h
  case stay =>
    intro links dir first steps hf ih h
    rw [List.cons_append, walk_stays hf] at h
    exact ih h
  case up =>
    intro links dir steps ih h
    rw [List.cons_append, walk_up] at h
    exact ih h
  case name =>
    intro links dir n steps ih jump h
    rw [List.cons_append, walk_name, if_neg (by simp)] at h
    split at h
    · cases h
    · split at h
      · rw [if_neg (more _)] at h
        cases h
      · exact ih h
      · rw [if_neg (more _)] at h
        cases h
      · rw [if_neg (by simp)] at h
        cases links with
        | zero => cases h
        | succ links =>
          rw [Tree.hop] at h
          split at h
          · cases h
          · rw [← List.append_assoc] at h
            exact jump links _ _ rfl h

/-- Looking for another name, in this directory or elsewhere, is not asking. -/
theorem not_asks_name {stays : List Segment} (hu : tree.Unpointed home m)
    (hne : n :: dir ≠ m :: home) (hs : ∀ s ∈ stays, s.stays = true) :
    ¬ tree.Asks home m links dir (.name n :: stays) := by
  rintro ⟨way, hp, hv⟩
  rcases List.prefix_cons_iff.1 hp with rfl | ⟨more, rfl, hmore⟩
  · rw [walk_nil] at hv
    cases hv
  rcases List.eq_nil_or_concat more with rfl | ⟨front, step, rfl⟩
  · rw [walk_name, if_neg (by simp)] at hv
    split at hv
    · cases hv
    · split at hv
      · cases hv
        exact hne rfl
      · rw [walk_nil] at hv
        cases hv
      · cases hv
      · rename_i target hl
        rw [if_neg (by simp)] at hv
        cases links with
        | zero => cases hv
        | succ links =>
          rw [Tree.hop] at hv
          split at hv
          · cases hv
          · rw [List.append_nil] at hv
            exact hu n dir target links hl ⟨_, List.prefix_rfl, hv⟩
  · rw [List.concat_eq_append] at hv hmore
    have hstep : step ∈ stays := hmore.subset (by simp)
    exact walk_concat_ne_vacant (hs step hstep) links dir (.name n :: front) hv

theorem not_asks_stays (hs : ∀ s ∈ steps, s.stays = true) :
    ¬ tree.Asks home m links dir steps := by
  rintro ⟨way, hp, hv⟩
  rw [walk_all_stays fun s hm => hs s (hp.subset hm)] at hv
  cases hv

/-- The steps that a link holds. -/
def way : Node → List Segment
  | .link text => (Path.ofBytes text).steps
  | _ => []

/-- A walk that ends at the free name has it among its steps, or passes a link that has. -/
theorem name_mem_of_walk
    (ht : ∀ n dir text, tree.get? (n :: dir) = some (.link text) →
      .name m ∉ (Path.ofBytes text).steps) : ∀ links dir steps,
    tree.walk .followed links dir steps = .ok (.vacant home m) → .name m ∈ steps := by
  apply walk_induction
  case done =>
    intro links dir h
    rw [walk_nil] at h
    cases h
  case stay =>
    intro links dir step steps hs ih h
    rw [walk_stays hs] at h
    exact List.mem_cons_of_mem _ (ih h)
  case up =>
    intro links dir steps ih h
    rw [walk_up] at h
    exact List.mem_cons_of_mem _ (ih h)
  case name =>
    intro links dir n steps ih jump h
    rw [walk_name, if_neg (by simp)] at h
    split at h
    · cases h
    split at h
    · split at h
      · cases h
        exact List.mem_cons_self
      · cases h
    · exact List.mem_cons_of_mem _ (ih h)
    · split at h <;> cases h
    · rename_i text hl
      rw [if_neg (by simp)] at h
      cases links with
      | zero => cases h
      | succ links =>
        rw [Tree.hop] at h
        split at h
        · cases h
        · rcases List.mem_append.1 (jump links _ _ rfl h) with hm | hm
          · exact absurd hm (ht n dir text hl)
          · exact List.mem_cons_of_mem _ hm

/-- Links that do not hold the name do not lead to it. -/
theorem Unpointed.of_ways (ht : ∀ e ∈ tree.entries, .name m ∉ way e.node) :
    tree.Unpointed home m := by
  have ht' : ∀ n dir text, tree.get? (n :: dir) = some (.link text) →
      .name m ∉ (Path.ofBytes text).steps := fun n dir text hg =>
    ht ⟨dir, n, .link text⟩ (tree.get?_cons_eq_some_iff.1 hg)
  rintro n dir text links hg ⟨way, hp, hv⟩
  exact ht' n dir text hg (hp.subset (name_mem_of_walk ht' _ _ _ hv))

/-! ## One file more -/

/-- The second tree has what the first has, and one file besides. -/
structure Besides (tree : Tree) (home : Location) (m : Name) (other : Tree) : Prop where
  file : ∃ file, other.get? (m :: home) = some (.file file)
  rest : other.detach (m :: home) = tree

namespace Besides

variable (h : tree.Besides home m other)

include h

theorem get?_eq (loc : Location) :
    tree.get? loc = if loc = m :: home then none else other.get? loc := by
  obtain ⟨file, hf⟩ := h.file
  rw [← h.rest]
  exact get?_detach (by rw [hf]; simp) loc

theorem free : tree.get? (m :: home) = none := by
  rw [h.get?_eq, if_pos rfl]

theorem get?_of_ne {loc : Location} (hl : loc ≠ m :: home) : other.get? loc = tree.get? loc := by
  rw [h.get?_eq, if_neg hl]

theorem entries_eq : tree.entries = other.entries.filter (·.location ≠ m :: home) := by
  obtain ⟨file, hf⟩ := h.file
  rw [← h.rest, detach, dif_pos (by rw [hf]; simp)]

theorem start (p : Path) : other.start p = tree.start p := by
  rw [Tree.start, Tree.start, ← h.rest, detach_cwd]

theorem keepsWays : tree.KeepsWays other := by
  intro loc node _ hg
  rw [h.get?_of_ne]
  · exact hg
  · rintro rfl
    rw [h.free] at hg
    cases hg

theorem keepsWays_back : other.KeepsWays tree := by
  intro loc node hf hg
  rw [← h.get?_of_ne]
  · exact hg
  · rintro rfl
    obtain ⟨file, hfile⟩ := h.file
    rw [hfile] at hg
    cases hg
    exact hf file rfl

/-- **A walk that does not ask for the file's name goes as if the file were not there.** -/
theorem walk_eq (hu : tree.Unpointed home m) : ∀ links dir steps,
    ¬ tree.Asks home m links dir steps →
      other.walk ending links dir steps = tree.walk ending links dir steps := by
  apply walk_induction
  case done =>
    intro links dir _
    rw [walk_nil, walk_nil]
  case stay =>
    intro links dir step rest hs ih hna
    rw [walk_stays hs, walk_stays hs]
    exact ih fun ha => hna (ha.stay hs)
  case up =>
    intro links dir rest ih hna
    rw [walk_up, walk_up]
    exact ih fun ha => hna ha.up
  case name =>
    intro links dir n rest ih jump hna
    rw [walk_name, walk_name]
    split
    · rfl
    split
    · rfl
    rename_i hn
    have hloc : n :: dir ≠ m :: home := by
      intro hl
      obtain ⟨rfl, rfl⟩ := List.cons.inj hl
      exact hna (.free (by omega) h.free)
    rw [h.get?_of_ne hloc]
    cases hg : tree.get? (n :: dir) with
    | none => rfl
    | some node =>
      cases node with
      | file f => rfl
      | directory =>
        dsimp only
        exact ih fun ha => hna (ha.enter (by omega) hg)
      | link target =>
        dsimp only
        split
        · rfl
        · cases links with
          | zero => rfl
          | succ links =>
            rw [Tree.hop, Tree.hop]
            split
            · rfl
            · rename_i ht
              exact jump links _ _ rfl fun ha => hna (ha.hop hu (by omega) hg (by simpa using ht))

/-- What is followed past a directory is the same, if nobody asks there for the file's name. -/
theorem follow_eq {p : Path} (hu : tree.Unpointed home m) (hs : p.steps = steps ++ rest)
    (hl : tree.Leads linkLimit (tree.start p) steps left last)
    (hna : ¬ tree.Asks home m left last rest) : other.follow p = tree.follow p := by
  rw [Tree.follow, Tree.follow, locate, locate]
  cases p.fault? with
  | some e => rfl
  | none =>
    dsimp only
    rw [h.start, hs, (hl.mono h.keepsWays).walk_append (.inl rfl), hl.walk_append (.inl rfl),
      h.walk_eq hu left last rest hna]

/-- A walk that ends well ends at the file, or goes as if the file were not there. -/
theorem walk_of_ok {place : Place} : ∀ links dir steps,
    other.walk ending links dir steps = .ok place →
      (∃ node, place = .found (m :: home) node) ∨ tree.walk ending links dir steps = .ok place := by
  apply walk_induction
  case done =>
    intro links dir hw
    rw [walk_nil] at hw
    exact .inr (by rw [walk_nil, hw])
  case stay =>
    intro links dir step rest hs ih hw
    rw [walk_stays hs] at hw
    rw [walk_stays hs]
    exact ih hw
  case up =>
    intro links dir rest ih hw
    rw [walk_up] at hw
    rw [walk_up]
    exact ih hw
  case name =>
    intro links dir n rest ih jump hw
    rw [walk_name] at hw ⊢
    split at hw
    · cases hw
    rw [if_neg ‹_›]
    split at hw
    · cases hw
    rw [if_neg ‹_›]
    by_cases hloc : n :: dir = m :: home
    · obtain ⟨file, hf⟩ := h.file
      rw [hloc, hf] at hw
      dsimp only at hw
      split at hw
      · cases hw
        exact .inl ⟨_, rfl⟩
      · cases hw
    · rw [h.get?_of_ne hloc] at hw
      cases hg : tree.get? (n :: dir) with
      | none =>
        rw [hg] at hw
        exact .inr hw
      | some node =>
        rw [hg] at hw
        cases node with
        | file f => exact .inr hw
        | directory => exact ih hw
        | link target =>
          dsimp only at hw ⊢
          split at hw
          · rw [if_pos ‹_›]
            exact .inr hw
          · rw [if_neg ‹_›]
            cases links with
            | zero => cases hw
            | succ links =>
              rw [Tree.hop] at hw ⊢
              split at hw
              · cases hw
              · rw [if_neg ‹_›]
                exact jump links _ _ rfl hw

end Besides

theorem Besides.attach (hd : tree.get? home = some .directory)
    (hv : tree.get? (m :: home) = none) (file : File) :
    tree.Besides home m (tree.attach home m (.file file)) := by
  refine ⟨⟨file, ?_⟩, detach_attach hd hv (by simp)⟩
  rw [get?_attach hd hv, if_pos rfl]

/-- A name that no link leads to is one still, once there is a file under another name. -/
theorem Besides.unpointed (h : tree.Besides home n other) (hu : tree.Unpointed home m) :
    other.Unpointed home m := by
  rintro k dir text links hg ⟨way, hp, hw⟩
  have hg' : tree.get? (k :: dir) = some (.link text) := h.keepsWays_back _ _ (by simp) hg
  rcases h.walk_of_ok links _ way hw with ⟨node, hf⟩ | hw
  · cases hf
  · exact hu k dir text links hg' ⟨way, hp, hw⟩

end Tree
end LineStore
