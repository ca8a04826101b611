import LineStore.Proofs.Dictionaries.Confinement
import LineStore.Proofs.Files.Standing

/-!
# What is outside cannot be told

Two trees are twins if they differ outside of the root only, and there only in files and
directories. A source that escapes should be answered alike in both, whether its target is there or
not. What can come between is a question on the way (`asked`) that the two trees answer differently
in a way that tells: it is refused in one of them only, or it is about a link that leads somewhere
in one of them only. Where there is no such question, every answer is the same (`fetch_twins`).

The two resolutions stay **at one location** (`resolveFrom_twins`). A name that exists in one tree
only changes nothing, since a name that does not exist is kept as it is written, and a name that
exists and is no link stands for itself. So all that is needed is that half-way (`Underway`) the
location stands, or is below a name that leads nowhere, in each tree for itself.
-/

namespace LineStore
namespace Tree

variable {A B tree : Tree} {home dir loc real other : Location} {links : Nat} {n : Name}
  {node : Node} {rest : List Segment}

/-- A walk that ends goes through a name that is no link, or ends there. -/
theorem walk_plain (hl : ∀ target, tree.get? (n :: dir) ≠ some (.link target))
    (hw : tree.walk .followed links dir (.name n :: rest) = .ok (.found real node)) :
    if rest = [] then real = n :: dir
    else tree.walk .followed links (n :: dir) rest = .ok (.found real node) := by
  rw [walk_name, if_neg (by simp)] at hw
  split at hw
  · cases hw
  · split at hw
    · split at hw <;> cases hw
    · split
      · subst rest
        rw [walk_nil] at hw
        cases hw
        rfl
      · exact hw
    · split at hw
      · cases hw
        rw [if_pos ‹_›]
      · cases hw
    · exact absurd ‹_› (hl _)

/-! ## Half-way, once more -/

/-- **What is below a name that leads nowhere is not there.** -/
theorem Lost.not_real (h : tree.Lost loc) : ¬ tree.Real loc := by
  rintro ⟨node, hg, hl⟩
  have hw := h.walk
  cases loc with
  | nil => cases h
  | cons n dir =>
    rw [List.reverse_cons, List.map_append, List.map_singleton] at hw
    rcases leads_straight_or linkLimit dir (tree.get?_dir hg) with hd | he
    · rw [hd.walk_append (.inl rfl), walk_name, if_neg (by simp), hg] at hw
      split at hw
      · cases hw
      · cases node with
        | directory => rw [walk_nil] at hw; cases hw
        | file f => cases hw
        | link target => exact hl target rfl
    · rw [walk_append_of_error (by simp) _ _ _ (by rw [he]; rfl)] at hw
      cases hw

theorem Lost.canonical_ne_ok (h : tree.Lost loc) : tree.canonical (.ofLocation loc) ≠ .ok real := by
  intro hc
  obtain ⟨node, hw⟩ := walk_of_canonical hc
  rw [Path.steps_ofLocation, show tree.start (.ofLocation loc) = [] from rfl] at hw
  have := h.walk
  rw [hw] at this
  cases this

theorem Stands.isReal (h : tree.Stands loc node) : tree.Real loc := ⟨node, h.entry, h.plain⟩

/-- A name is absent only in a directory that can be told by its location. -/
theorem Real.stands_of_absent (h : tree.Real dir)
    (ha : tree.canonical (.ofLocation (n :: dir)) = .error .absent) :
    tree.Stands dir .directory := by
  have hw := walk_of_canonical_absent ha
  rw [List.reverse_cons, List.map_append, List.map_singleton] at hw
  have toolong : ∀ {loc : Location} {more}, more ≠ [] →
      tree.walk .followed linkLimit [] (loc.reverse.map .name) = .error .nameTooLong →
      (tree.walk .followed linkLimit [] (loc.reverse.map .name ++ more)).bind Place.entry ≠
        .error .absent := by
    intro loc more hm he hw
    rw [walk_append_of_error hm _ _ _ (by rw [he]; rfl)] at hw
    cases hw
  obtain ⟨node, hg, hl⟩ := h
  cases node with
  | link target => exact absurd rfl (hl target)
  | directory =>
    rcases leads_straight_or linkLimit dir hg with hd | he
    · exact stands_of_walk _ _ _ .root hd.walk_followed
    · exact absurd hw (toolong (by simp) he)
  | file f =>
    cases dir with
    | nil => cases hg
    | cons m dir =>
      rw [List.reverse_cons, List.map_append, List.map_singleton, List.append_assoc] at hw
      rcases leads_straight_or linkLimit dir (tree.get?_dir hg) with hd | he
      · rw [hd.walk_append (.inl rfl), List.singleton_append, walk_name, if_neg (by simp), hg] at hw
        split at hw <;> cases hw
      · exact absurd hw (toolong (by simp) he)

/-- Where a resolution is after some of the steps of a source: at an entry that stands there, or
below a name that leads nowhere. -/
def Underway (tree : Tree) (loc : Location) : Prop := (∃ node, tree.Stands loc node) ∨ tree.Lost loc

namespace Underway

theorem root : tree.Underway [] := .inl ⟨.directory, .root⟩

theorem up (h : tree.Underway loc) : tree.Underway loc.tail := by
  rcases h with ⟨node, hs⟩ | hl
  · exact .inl ⟨.directory, hs.up⟩
  · cases hl with
    | first hd ha => exact .inl ⟨.directory, hd.stands_of_absent ha⟩
    | under hl => exact .inr hl

theorem of_canonical (h : tree.canonical (.ofLocation loc) = .ok real) : tree.Underway real := by
  obtain ⟨node, hw⟩ := walk_of_canonical h
  exact .inl ⟨node, stands_of_walk _ _ _ .root hw⟩

theorem missing (h : tree.Underway loc)
    (ha : tree.canonical (.ofLocation (n :: loc)) = .error .absent) : tree.Underway (n :: loc) := by
  rcases h with ⟨node, hs⟩ | hl
  · exact .inr (.first hs.isReal ha)
  · exact .inr (.under hl)

/-- **A name that exists and is no link stands for itself.** -/
theorem canonical_plain (h : tree.Underway loc)
    (hc : tree.canonical (.ofLocation (n :: loc)) = .ok real)
    (hl : ∀ target, tree.get? (n :: loc) ≠ some (.link target)) : real = n :: loc := by
  obtain ⟨found, hw⟩ := walk_of_canonical hc
  rw [Path.steps_ofLocation, show tree.start (.ofLocation (n :: loc)) = [] from rfl] at hw
  rcases h with ⟨node, hs⟩ | hlost
  · rw [List.reverse_cons, List.map_append, List.map_singleton] at hw
    obtain ⟨left, last, hleads, hw⟩ := exists_leads_of_walk_more (by simp) (.inl rfl) _ _ _ hw
    cases walk_straight hs.entry hs.plain hleads.walk_followed
    simpa using walk_plain hl hw
  · exact absurd hc hlost.under.canonical_ne_ok

end Underway

/-! ## Twins -/

/-- Trees that differ outside of `home` only, and there only in files and directories. -/
structure Twins (home : Location) (A B : Tree) : Prop where
  inside : ∀ loc, home <:+ loc → A.get? loc = B.get? loc
  links : ∀ loc target, A.get? loc = some (.link target) ↔ B.get? loc = some (.link target)

namespace Twins

/-- A file or a directory that is made outside gives a twin. -/
theorem attach (hout : ¬ home <:+ n :: dir) (hn : ∀ target, node ≠ .link target) :
    Twins home (tree.attach dir n node) tree := by
  by_cases hf : tree.get? dir = some .directory ∧ tree.get? (n :: dir) = none
  · constructor
    case inside =>
      intro loc hs
      rw [get?_attach hf.1 hf.2, if_neg]
      rintro rfl
      exact hout hs
    case links =>
      intro loc target
      rw [get?_attach hf.1 hf.2]
      split
      · rename_i he
        rw [he, hf.2]
        simp [hn target]
      · rfl
  · rw [Tree.attach, dif_neg hf]
    exact ⟨fun _ _ => rfl, fun _ _ => Iff.rfl⟩

/-- **Walks that end, end at one place**: the links are the same, and whatever else the one walk
went through, the other one went through as well. -/
theorem walk_eq {node' : Node} (h : Twins home A B) : ∀ links dir steps,
    A.walk .followed links dir steps = .ok (.found real node) →
    B.walk .followed links dir steps = .ok (.found other node') → real = other := by
  apply walk_induction
  case done =>
    intro links dir hA hB
    rw [walk_nil] at hA hB
    cases hA
    cases hB
    rfl
  case stay =>
    intro links dir step steps hs ih hA hB
    rw [walk_stays hs] at hA hB
    exact ih hA hB
  case up =>
    intro links dir steps ih hA hB
    rw [walk_up] at hA hB
    exact ih hA hB
  case name =>
    intro links dir n steps ih jump hA hB
    by_cases hl : ∃ target, A.get? (n :: dir) = some (.link target)
    · obtain ⟨target, hl⟩ := hl
      rw [walk_name, if_neg (by simp), hl] at hA
      rw [walk_name, if_neg (by simp), (h.links _ _).1 hl] at hB
      split at hA
      · cases hA
      · rw [if_neg ‹_›] at hB
        dsimp only at hA hB
        rw [if_neg (by simp)] at hA hB
        cases links with
        | zero => cases hA
        | succ links =>
          rw [Tree.hop] at hA hB
          split at hA
          · cases hA
          · rw [if_neg ‹_›] at hB
            exact jump links _ _ rfl hA hB
    · have hlA : ∀ target, A.get? (n :: dir) ≠ some (.link target) :=
        fun target hg => hl ⟨target, hg⟩
      have hlB : ∀ target, B.get? (n :: dir) ≠ some (.link target) :=
        fun target hg => hlA target ((h.links _ _).2 hg)
      have hA := walk_plain hlA hA
      have hB := walk_plain hlB hB
      by_cases hs : steps = []
      · rw [if_pos hs] at hA hB
        rw [hA, hB]
      · rw [if_neg hs] at hA hB
        exact ih hA hB

theorem canonical_eq (h : Twins home A B) {p : Path} (hp : p.absolute = true)
    (hA : A.canonical p = .ok real) (hB : B.canonical p = .ok other) : real = other := by
  obtain ⟨_, hA⟩ := walk_of_canonical hA
  obtain ⟨_, hB⟩ := walk_of_canonical hB
  rw [start, if_pos hp] at hA hB
  exact h.walk_eq _ _ _ hA hB

/-- **What is inside reads alike.** -/
theorem follow_eq (h : Twins home A B) (hin : home <:+ loc) (hA : A.Underway loc)
    (hB : B.Underway loc) : A.follow (.ofLocation loc) = B.follow (.ofLocation loc) := by
  have straight : (A.walk .followed linkLimit [] (loc.reverse.map .name)).bind Place.entry =
      (B.walk .followed linkLimit [] (loc.reverse.map .name)).bind Place.entry := by
    rcases hA with ⟨node, hA⟩ | hA
    · have hB : B.Stands loc node := ⟨h.inside loc hin ▸ hA.entry, hA.plain, hA.short⟩
      rw [hA.walk, hB.walk]
    · rcases hB with ⟨node, hB⟩ | hB
      · exact absurd ⟨node, h.inside loc hin ▸ hB.entry, hB.plain⟩ hA.not_real
      · rw [hA.walk, hB.walk]
  unfold follow locate
  split
  · rfl
  · rw [Path.steps_ofLocation]
    exact straight

end Twins

end Tree

namespace Dictionaries

open LineStore.Tree

variable {A B tree : Tree} {home loc after : Location} {n : Name} {rest : List Segment}

/-- Where one more name leads: to where it really is, or where it is written if it is not there. -/
def next? (tree : Tree) (loc : Location) (n : Name) : Option Location :=
  match tree.canonical (.ofLocation (n :: loc)) with
  | .ok real => some real
  | .error .absent => some (n :: loc)
  | .error _ => none

/-- The locations that the resolution of the steps asks about. -/
def asked (tree : Tree) : Location → List Segment → List Location
  | _, [] => []
  | loc, .blank :: rest => asked tree loc rest
  | loc, .here :: rest => asked tree loc rest
  | loc, .up :: rest => asked tree loc.tail rest
  | loc, .name n :: rest =>
    (n :: loc) ::
      match next? tree loc n with
      | some after => asked tree after rest
      | none => []

/-- A location about which a question is refused: not even that nothing is there can be said. -/
def Refused (tree : Tree) (loc : Location) : Prop :=
  ∃ e, e ≠ .absent ∧ tree.canonical (.ofLocation loc) = .error e

/-- A location that leads to an entry. -/
def Present (tree : Tree) (loc : Location) : Prop :=
  ∃ real, tree.canonical (.ofLocation loc) = .ok real

/-- What two trees have to answer alike about a location: whether the question is refused, and of a
link whether it leads to an entry. -/
structure Alike (A B : Tree) (loc : Location) : Prop where
  refused : Refused A loc ↔ Refused B loc
  linked : ∀ target, A.get? loc = some (.link target) → (Present A loc ↔ Present B loc)

theorem resolveFrom_name :
    (resolveFrom tree loc (.name n :: rest)).toOption =
      (next? tree loc n).bind fun after => (resolveFrom tree after rest).toOption := by
  rw [resolveFrom, next?]
  cases tree.canonical (.ofLocation (n :: loc)) with
  | ok real => rfl
  | error e => cases e <;> rfl

theorem next?_eq_none_iff : next? tree loc n = none ↔ Refused tree (n :: loc) := by
  unfold next?
  split <;> simp_all [Refused]

theorem canonical_of_next? (h : next? tree loc n = some after) :
    tree.canonical (.ofLocation (n :: loc)) = .ok after ∨
      tree.canonical (.ofLocation (n :: loc)) = .error .absent ∧ after = n :: loc := by
  unfold next? at h
  split at h
  · cases h
    exact .inl ‹_›
  · cases h
    exact .inr ⟨‹_›, rfl⟩
  · cases h

theorem not_refused_of_next? (h : next? tree loc n = some after) : ¬ Refused tree (n :: loc) := by
  intro hr
  rw [next?_eq_none_iff.2 hr] at h
  cases h

theorem underway_of_next? (h : tree.Underway loc) (hn : next? tree loc n = some after) :
    tree.Underway after := by
  rcases canonical_of_next? hn with hc | ⟨hc, rfl⟩
  · exact .of_canonical hc
  · exact h.missing hc

/-- **The resolution of a source stays underway.** -/
theorem underway_of_resolveFrom : ∀ {steps : List Segment} {loc}, tree.Underway loc →
    (resolveFrom tree loc steps).toOption = some after → tree.Underway after := by
  intro steps
  induction steps with
  | nil =>
    intro loc h hr
    cases hr
    exact h
  | cons step rest ih =>
    intro loc h hr
    cases step with
    | blank | here => exact ih h hr
    | up => exact ih h.up hr
    | name n =>
      rw [resolveFrom_name, Option.bind_eq_some_iff] at hr
      obtain ⟨next, hn, hr⟩ := hr
      exact ih (underway_of_next? h hn) hr

theorem Alike.symm (h : Twins home A B) (ha : Alike A B loc) : Alike B A loc :=
  ⟨ha.refused.symm, fun target hl => (ha.linked target ((h.links _ _).2 hl)).symm⟩

/-- What exists in one of the trees only is no link. -/
theorem Alike.plain_of_absent (ha : Alike A B (n :: loc)) (hA : A.Underway loc)
    (hc : A.canonical (.ofLocation (n :: loc)) = .ok after)
    (hn : B.canonical (.ofLocation (n :: loc)) = .error .absent) : after = n :: loc := by
  refine hA.canonical_plain hc fun target hl => ?_
  obtain ⟨real, hr⟩ := (ha.linked target hl).1 ⟨after, hc⟩
  rw [hn] at hr
  cases hr

/-- It is all the same whether a file or a directory exists. -/
theorem Alike.of_plain (hA : ¬ Refused A loc) (hB : ¬ Refused B loc)
    (hl : ∀ target, A.get? loc ≠ some (.link target)) : Alike A B loc :=
  ⟨iff_of_false hA hB, fun target h => absurd h (hl target)⟩

/-- **One more name leads to the same location in twins** that answer alike about it. -/
theorem next?_twins (h : Twins home A B) (hA : A.Underway loc) (hB : B.Underway loc)
    (ha : Alike A B (n :: loc)) : next? A loc n = next? B loc n := by
  cases ha' : next? A loc n with
  | none => exact (next?_eq_none_iff.2 (ha.refused.1 (next?_eq_none_iff.1 ha'))).symm
  | some a =>
    cases hb' : next? B loc n with
    | none =>
      rw [next?_eq_none_iff.2 (ha.refused.2 (next?_eq_none_iff.1 hb'))] at ha'
      cases ha'
    | some b =>
      congr 1
      rcases canonical_of_next? ha' with hca | ⟨hca, rfl⟩ <;>
        rcases canonical_of_next? hb' with hcb | ⟨hcb, rfl⟩
      · exact h.canonical_eq rfl hca hcb
      · exact ha.plain_of_absent hA hca hcb
      · exact ((ha.symm h).plain_of_absent hB hcb hca).symm
      · rfl

/-- **Resolving stays at one location in twins**, if they answer alike all the way. -/
theorem resolveFrom_twins (h : Twins home A B) : ∀ {steps : List Segment} {loc},
    A.Underway loc → B.Underway loc → (∀ q ∈ asked A loc steps, Alike A B q) →
    (resolveFrom A loc steps).toOption = (resolveFrom B loc steps).toOption := by
  intro steps
  induction steps with
  | nil => exact fun _ _ _ => rfl
  | cons step rest ih =>
    intro loc hA hB ha
    cases step with
    | blank | here =>
      rw [asked] at ha
      rw [resolveFrom, resolveFrom]
      exact ih hA hB ha
    | up =>
      rw [asked] at ha
      rw [resolveFrom, resolveFrom]
      exact ih hA.up hB.up ha
    | name n =>
      rw [asked, List.forall_mem_cons] at ha
      have hnext := next?_twins h hA hB ha.1
      rw [resolveFrom_name, resolveFrom_name, ← hnext]
      cases hn : next? A loc n with
      | none => rw [Option.bind_none, Option.bind_none]
      | some after =>
        rw [hn] at ha
        rw [Option.bind_some, Option.bind_some]
        exact ih (underway_of_next? hA hn) (underway_of_next? hB (hnext ▸ hn)) ha.2

theorem resolve?_eq {root : Path} {source : String} (hroot : tree.canonical root = .ok home) :
    resolve? tree root source =
      (resolveLenient tree ((Path.ofLocation home).join (.ofString source))).toOption.filter
        fun loc => home.isSuffixOf loc := by
  unfold resolve?
  rw [hroot]
  dsimp only
  cases resolveLenient tree ((Path.ofLocation home).join (.ofString source)) with
  | error e => rfl
  | ok loc => rfl

/-- **A source is answered alike in twins**, whatever is outside of the root, if no question on the
way is refused in one of them only, and no link that is asked about leads somewhere in one of them
only. -/
theorem fetch_twins (store : Dictionaries) (type source : String) (h : Twins home A B)
    (hA : A.canonical store.root = .ok home) (hB : B.canonical store.root = .ok home)
    (ha : ∀ loc ∈ asked A [] ((Path.ofLocation home).join (.ofString source)).segments,
      Alike A B loc) :
    store.fetch type source A = store.fetch type source B := by
  have hres : resolve? A store.root source = resolve? B store.root source := by
    rw [resolve?_eq hA, resolve?_eq hB, resolveLenient, resolveLenient,
      resolveFrom_twins h .root .root ha]
  unfold fetch
  rw [← hres]
  cases hr : resolve? A store.root source with
  | none => rfl
  | some loc =>
    have way : ∀ {tree : Tree}, tree.canonical store.root = .ok home →
        resolve? tree store.root source = some loc → home <:+ loc ∧ tree.Underway loc := by
      intro tree hroot hr
      rw [resolve?_eq hroot, Option.filter_eq_some_iff] at hr
      exact ⟨List.isSuffixOf_iff_suffix.1 hr.2, underway_of_resolveFrom .root hr.1⟩
    obtain ⟨hin, hunderA⟩ := way hA hr
    obtain ⟨-, hunderB⟩ := way hB (hres ▸ hr)
    have hread : A.readText? (.ofLocation loc) = B.readText? (.ofLocation loc) := by
      unfold readText? readBytes
      rw [h.follow_eq hin hunderA hunderB]
    dsimp only
    rw [hread]

/-- A directory with a file in it. -/
def loneTree : Tree :=
  (Tree.empty.attach [] [0x64] .directory).attach [[0x64]] [0x77] (.file ⟨0, [0x61], 0⟩)

/-- An escape, to a file that is there in one of the trees only. -/
theorem fetch_twins_escape :
    Twins [[0x64]] (loneTree.attach [] [0x73] (.file ⟨1, [], 0⟩)) loneTree ∧
      (∀ loc ∈ asked (loneTree.attach [] [0x73] (.file ⟨1, [], 0⟩)) []
        ((Path.ofLocation [[0x64]]).join (.ofString "../s")).segments,
        Alike (loneTree.attach [] [0x73] (.file ⟨1, [], 0⟩)) loneTree loc) ∧
      Dictionaries.fetch ⟨⟨true, [.name [0x64]], false⟩⟩ "file" "../s"
        (loneTree.attach [] [0x73] (.file ⟨1, [], 0⟩)) = .error (.accessDenied "../s") ∧
      Dictionaries.fetch ⟨⟨true, [.name [0x64]], false⟩⟩ "file" "../s" loneTree =
        .error (.accessDenied "../s") := by
  have twins : Twins [[0x64]] (loneTree.attach [] [0x73] (.file ⟨1, [], 0⟩)) loneTree :=
    .attach (by decide) (by simp)
  have alike : ∀ loc ∈ asked (loneTree.attach [] [0x73] (.file ⟨1, [], 0⟩)) []
      ((Path.ofLocation [[0x64]]).join (.ofString "../s")).segments,
      Alike (loneTree.attach [] [0x73] (.file ⟨1, [], 0⟩)) loneTree loc := by
    rw [show asked (loneTree.attach [] [0x73] (.file ⟨1, [], 0⟩)) []
      ((Path.ofLocation [[0x64]]).join (.ofString "../s")).segments = [[[0x64]], [[0x73]]] from rfl]
    intro loc hl
    simp only [List.mem_cons, List.not_mem_nil, or_false] at hl
    rcases hl with rfl | rfl
    · exact .of_plain (not_refused_of_next? rfl) (not_refused_of_next? rfl) (by rintro target ⟨⟩)
    · exact .of_plain (not_refused_of_next? rfl) (not_refused_of_next? rfl) (by rintro target ⟨⟩)
  have there : Dictionaries.fetch ⟨⟨true, [.name [0x64]], false⟩⟩ "file" "../s"
      (loneTree.attach [] [0x73] (.file ⟨1, [], 0⟩)) = .error (.accessDenied "../s") := rfl
  exact ⟨twins, alike, there, (fetch_twins _ _ _ twins rfl rfl alike).symm.trans there⟩

/-- A directory with a link out of it to something that is not there. -/
def danglingTree : Tree :=
  (Tree.empty.attach [] [0x64] .directory).attach [[0x64]] [0x6C] (.link [0x2E, 0x2E, 0x2F, 0x73])

/-- **A link out of the root tells whether its target is there.** It is forbidden if it is, and
missing if it is not: what leads nowhere is kept as it is written, and this is written inside. -/
theorem fetch_tells_dangling :
    Twins [[0x64]] (danglingTree.attach [] [0x73] (.file ⟨0, [0x61], 0⟩)) danglingTree ∧
      (danglingTree.attach [] [0x73] (.file ⟨0, [0x61], 0⟩)).canonical
        ⟨true, [.name [0x64]], false⟩ = .ok [[0x64]] ∧
      danglingTree.canonical ⟨true, [.name [0x64]], false⟩ = .ok [[0x64]] ∧
      Dictionaries.fetch ⟨⟨true, [.name [0x64]], false⟩⟩ "file" "l"
        (danglingTree.attach [] [0x73] (.file ⟨0, [0x61], 0⟩)) = .error (.accessDenied "l") ∧
      Dictionaries.fetch ⟨⟨true, [.name [0x64]], false⟩⟩ "file" "l" danglingTree =
        .error (.notFound "l") :=
  ⟨.attach (by decide) (by simp), rfl, rfl, rfl, rfl⟩

end Dictionaries
end LineStore
