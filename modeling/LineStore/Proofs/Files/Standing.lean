import LineStore.Files.Calls
import LineStore.Proofs.Files.Fitting
import LineStore.Proofs.Text.Pieces

/-!
# Where walks end, and the straight way there

A walk that follows links to the end, and succeeds, ends at an entry that is no link and whose
names, all the way up, are as short as names have to be: `Stands`. That is all it takes for the
**straight way** to lead there again (`Stands.walk`), through no link at all. So a path can be
exchanged for the location that it leads to, and a walk can be begun anew in the middle, with all of
its links to pass: `canonical_child` says what comes of one more name after such an exchange.
-/

namespace LineStore
namespace Tree

variable {tree : Tree} {ending : Ending} {links : Nat} {dir loc : Location} {node : Node}
  {n : Name}

/-- What stands at a location can be told by that location: it is no link, and no name is longer
than a walk takes. -/
structure Stands (tree : Tree) (loc : Location) (node : Node) : Prop where
  entry : tree.get? loc = some node
  plain : ∀ target, node ≠ .link target
  short : ∀ n ∈ loc, n.length ≤ nameLimit

theorem Leads.walk_followed {left : Nat} {last : Location} {steps : List Segment}
    (h : tree.Leads links dir steps left last) :
    tree.walk .followed links dir steps = .ok (.found last .directory) := by
  have hw : tree.walk .followed links dir (steps ++ []) = tree.walk .followed left last [] :=
    h.walk_append (.inl rfl)
  rwa [List.append_nil, walk_nil] at hw

namespace Stands

theorem root : tree.Stands [] .directory := ⟨rfl, by simp, by simp⟩

theorem up (h : tree.Stands loc node) : tree.Stands loc.tail .directory := by
  cases loc with
  | nil => exact .root
  | cons n dir => exact ⟨tree.get?_dir h.entry, by simp, fun m hm => h.short m (.tail n hm)⟩

theorem enter (h : tree.Stands dir .directory) (hn : n.length ≤ nameLimit)
    (hg : tree.get? (n :: dir) = some node) (hl : ∀ target, node ≠ .link target) :
    tree.Stands (n :: dir) node := by
  refine ⟨hg, hl, fun m hm => ?_⟩
  rcases List.mem_cons.1 hm with rfl | hm
  · exact hn
  · exact h.short m hm

/-- **The straight way leads to what stands there**, and passes no link. -/
theorem leads (h : tree.Stands loc .directory) :
    tree.Leads links [] (loc.reverse.map .name) links loc := by
  induction loc with
  | nil => exact .done
  | cons n dir ih =>
    rw [List.reverse_cons, List.map_append]
    exact (ih h.up).append (.enter (h.short n List.mem_cons_self) h.entry .done)

theorem walk (h : tree.Stands loc node) :
    tree.walk .followed links [] (loc.reverse.map .name) = .ok (.found loc node) := by
  cases loc with
  | nil =>
    cases h.entry
    exact walk_nil
  | cons n dir =>
    have hd : tree.Leads links [] (dir.reverse.map .name) links dir := h.up.leads
    rw [List.reverse_cons, List.map_append, List.map_singleton, hd.walk_append (.inl rfl),
      walk_name, if_neg (by simp), if_neg (Nat.not_lt.2 (h.short n List.mem_cons_self)), h.entry]
    cases node with
    | directory => exact walk_nil
    | file f => rfl
    | link target => exact absurd rfl (h.plain target)

end Stands

/-- **What a walk ends at stands there**, if it began in a directory that does. -/
theorem stands_of_walk : ∀ links dir steps, tree.Stands dir .directory →
    tree.walk .followed links dir steps = .ok (.found loc node) → tree.Stands loc node := by
  apply walk_induction
  case done =>
    intro links dir hd h
    rw [walk_nil] at h
    cases h
    exact hd
  case stay =>
    intro links dir step steps hs ih hd h
    rw [walk_stays hs] at h
    exact ih hd h
  case up =>
    intro links dir steps ih hd h
    rw [walk_up] at h
    exact ih hd.up h
  case name =>
    intro links dir n steps ih jump hd h
    rw [walk_name, if_neg (by simp)] at h
    split at h
    · cases h
    · rename_i hn
      split at h
      · split at h <;> cases h
      · rename_i hg
        exact ih (hd.enter (Nat.not_lt.1 hn) hg (by simp)) h
      · rename_i hg
        split at h
        · cases h
          exact hd.enter (Nat.not_lt.1 hn) hg (by simp)
        · cases h
      · rw [if_neg (by simp)] at h
        cases links with
        | zero => cases h
        | succ links =>
          rw [Tree.hop] at h
          split at h
          · cases h
          · refine jump links _ _ rfl ?_ h
            split
            · exact .root
            · exact hd

/-- A walk that succeeds ends at the same place if it may pass more links. -/
theorem walk_more {place : Place} : ∀ links dir steps more, links ≤ more →
    tree.walk ending links dir steps = .ok place →
    tree.walk ending more dir steps = .ok place := by
  apply walk_induction
  case done =>
    intro links dir more _ h
    rw [walk_nil] at h ⊢
    exact h
  case stay =>
    intro links dir step steps hs ih more hm h
    rw [walk_stays hs] at h ⊢
    exact ih more hm h
  case up =>
    intro links dir steps ih more hm h
    rw [walk_up] at h ⊢
    exact ih more hm h
  case name =>
    intro links dir n steps ih jump more hm h
    rw [walk_name] at h ⊢
    split at h
    · cases h
    · rw [if_neg ‹_›]
      split at h
      · cases h
      · rw [if_neg ‹_›]
        split at h
        · exact h
        · exact ih more hm h
        · exact h
        · split at h
          · rw [if_pos ‹_›]
            exact h
          · rw [if_neg ‹_›]
            cases links with
            | zero => cases h
            | succ links =>
              obtain ⟨fewer, rfl⟩ : ∃ fewer, more = fewer + 1 := ⟨more - 1, by omega⟩
              rw [Tree.hop] at h ⊢
              split at h
              · cases h
              · rw [if_neg ‹_›]
                exact jump links _ _ rfl fewer (by omega) h

/-! ## Places that fit -/

/-- **The straight way to what fits has nothing too long on it.** -/
theorem Stands.outgrows (h : tree.Stands loc node) (hf : loc.Fits) :
    tree.outgrows links [] (loc.reverse.map .name) = false := by
  induction loc generalizing node with
  | nil => exact outgrows_nil
  | cons n dir ih =>
    have hd : tree.Leads links [] (dir.reverse.map .name) links dir := h.up.leads
    rw [List.reverse_cons, List.map_append, hd.outgrows_append, ih h.up hf.up, Bool.false_or,
      List.map_singleton, outgrows_name, if_neg (Nat.not_lt.2 (h.short n List.mem_cons_self)),
      if_neg (Nat.not_lt.2 hf), h.entry]
    cases node with
    | directory => exact outgrows_nil
    | file f => rfl
    | link target => exact absurd rfl (h.plain target)

theorem fits_of_canonical {base : Location} (h : tree.canonical (.ofLocation base) = .ok loc) :
    loc.Fits := by
  obtain ⟨-, -, ho, node, hw⟩ := canonical_eq_ok_iff.1 h
  exact fits_of_walk _ _ _ .root ho hw

/-- Making a location canonical is going the straight way to it. -/
theorem canonical_ofLocation (tree : Tree) (loc : Location) :
    tree.canonical (.ofLocation loc) =
      if (Path.ofLocation loc).hasZero then .error .zeroInPath
      else if tree.outgrows linkLimit [] (loc.reverse.map .name) then .error .nameTooLong
      else ((tree.walk .followed linkLimit [] (loc.reverse.map .name)).bind Place.entry).map
        (·.1) := by
  have he : (Path.ofLocation loc).isEmpty = false := rfl
  rw [canonical, he, if_neg Bool.false_ne_true, Path.steps_ofLocation]
  rfl

/-- **One more name after what stands there.** -/
theorem Stands.canonical_child (h : tree.Stands dir .directory) (hf : dir.Fits) (n : Name) :
    tree.canonical (.ofLocation (n :: dir)) =
      if (Path.ofLocation (n :: dir)).hasZero then .error .zeroInPath
      else if tree.outgrows linkLimit dir [.name n] then .error .nameTooLong
      else ((tree.walk .followed linkLimit dir [.name n]).bind Place.entry).map (·.1) := by
  have hw : tree.walk .followed linkLimit [] ((n :: dir).reverse.map .name) =
      tree.walk .followed linkLimit dir [.name n] := by
    rw [List.reverse_cons, List.map_append, List.map_singleton]
    exact h.leads.walk_append (.inl rfl)
  have ho : tree.outgrows linkLimit [] ((n :: dir).reverse.map .name) =
      tree.outgrows linkLimit dir [.name n] := by
    rw [List.reverse_cons, List.map_append, h.leads.outgrows_append, h.outgrows hf,
      Bool.false_or, List.map_singleton]
  rw [canonical_ofLocation, hw, ho]

/-! ## Zero bytes -/

/-- No link holds a zero byte. Links are made by `makeLink` only, and it makes none that does. -/
def ZeroFree (tree : Tree) : Prop :=
  ∀ loc target, tree.get? loc = some (.link target) → 0 ∉ target

namespace ZeroFree

theorem empty : Tree.empty.ZeroFree := by
  intro loc target h
  cases loc <;> cases h

theorem attach (h : tree.ZeroFree) (hn : ∀ target, node = .link target → 0 ∉ target) :
    (tree.attach dir n node).ZeroFree := by
  by_cases hf : tree.get? dir = some .directory ∧ tree.get? (n :: dir) = none
  · intro loc target hl
    rw [get?_attach hf.1 hf.2] at hl
    split at hl
    · exact hn target (Option.some.inj hl)
    · exact h loc target hl
  · rwa [Tree.attach, dif_neg hf]

/-- **No link with a zero byte is ever made.** -/
theorem makeLink {target : Bytes} {p : Path} {after : Tree} (h : tree.ZeroFree)
    (hm : tree.makeLink target p = .ok after) : after.ZeroFree := by
  unfold Tree.makeLink at hm
  split at hm
  · cases hm
  · rename_i hzero
    split at hm
    · cases hm
    · split at hm
      · cases hm
      · split at hm
        · split at hm
          · cases hm
          · cases hm
            refine h.attach fun other he hmem => hzero ?_
            cases he
            simp [hmem]
        · cases hm

end ZeroFree

/-- A name in a path is a piece of its bytes, and is not taken for anything but a name. -/
theorem exists_piece_of_mem_ofBytes {b : Bytes} {n : Name}
    (hn : .name n ∈ (Path.ofBytes b).segments) : Segment.ofBytes n = .name n ∧
      ∃ inner : Bytes, inner ⊆ b ∧ n ∈ inner.splitOnP (· == Segment.separator) := by
  unfold Path.ofBytes at hn
  dsimp only at hn
  generalize hbody : (if (b.head? == some Segment.separator) = true then b.tail else b) = body at hn
  have hbody : body ⊆ b := by
    rw [← hbody]
    split
    · exact fun _ => List.mem_of_mem_tail
    · exact fun _ => id
  split at hn
  · cases hn
  · obtain ⟨piece, hp, he⟩ := List.mem_map.1 hn
    have hpiece : piece = n := by rw [← Segment.toBytes_ofBytes piece, he, Segment.toBytes]
    subst hpiece
    refine ⟨he, _, ?_, hp⟩
    split
    · exact fun _ hx => hbody (List.dropLast_subset _ hx)
    · exact hbody

/-- The bytes of a name in a path are bytes of the path. -/
theorem mem_of_mem_ofBytes {b : Bytes} {n : Name} {x : UInt8}
    (hn : .name n ∈ (Path.ofBytes b).steps) (hx : x ∈ n) : x ∈ b := by
  have hn : .name n ∈ (Path.ofBytes b).segments := by
    unfold Path.steps at hn
    rcases List.mem_append.1 hn with hn | hn
    · exact hn
    · split at hn
      · cases List.mem_singleton.1 hn
      · cases hn
  obtain ⟨-, inner, hinner, hp⟩ := exists_piece_of_mem_ofBytes hn
  exact hinner (mem_of_mem_splitOnP hp hx)

theorem hasZero_eq_false_iff {p : Path} :
    p.hasZero = false ↔ ∀ n, .name n ∈ p.segments → 0 ∉ n := by
  unfold Path.hasZero
  rw [List.any_eq_false]
  constructor
  · intro h n hn
    simpa using h (.name n) hn
  · intro h step hs
    cases step with
    | name n => simpa using h n hs
    | blank | here | up => exact Bool.false_ne_true

/-- A path is found to hold a zero byte before anything else is found out about it. -/
theorem hasZero_of_canonical {p : Path} {answer : Except FileError Location}
    (h : tree.canonical p = answer) (ha : answer ≠ .error .zeroInPath) : p.hasZero = false := by
  unfold canonical at h
  split at h
  · exact absurd h.symm ha
  · exact eq_false_of_ne_true ‹_›

theorem hasZero_ofLocation : (Path.ofLocation loc).hasZero = false ↔ ∀ n ∈ loc, 0 ∉ n := by
  rw [hasZero_eq_false_iff]
  simp [Path.ofLocation]

/-- A walk through names without zero bytes ends at a location without. -/
theorem zero_not_mem_of_walk (hz : tree.ZeroFree) : ∀ links dir steps, (∀ n ∈ dir, 0 ∉ n) →
    (∀ n, .name n ∈ steps → 0 ∉ n) →
    tree.walk .followed links dir steps = .ok (.found loc node) → ∀ n ∈ loc, 0 ∉ n := by
  apply walk_induction
  case done =>
    intro links dir hd _ h
    rw [walk_nil] at h
    cases h
    exact hd
  case stay =>
    intro links dir step steps hs ih hd hn h
    rw [walk_stays hs] at h
    exact ih hd (fun n hm => hn n (.tail _ hm)) h
  case up =>
    intro links dir steps ih hd hn h
    rw [walk_up] at h
    exact ih (fun n hm => hd n (List.mem_of_mem_tail hm)) (fun n hm => hn n (.tail _ hm)) h
  case name =>
    intro links dir m steps ih jump hd hn h
    have hm : ∀ n ∈ m :: dir, 0 ∉ n := by
      intro n hm
      rcases List.mem_cons.1 hm with rfl | hm
      · exact hn n List.mem_cons_self
      · exact hd n hm
    have hs : ∀ n, .name n ∈ steps → 0 ∉ n := fun n hm => hn n (.tail _ hm)
    rw [walk_name, if_neg (by simp)] at h
    split at h
    · cases h
    · split at h
      · split at h <;> cases h
      · exact ih hm hs h
      · split at h
        · cases h
          exact hm
        · cases h
      · rename_i target hl
        rw [if_neg (by simp)] at h
        cases links with
        | zero => cases h
        | succ links =>
          rw [Tree.hop] at h
          split at h
          · cases h
          · refine jump links _ _ rfl ?_ ?_ h
            · split
              · exact fun _ hn => by cases hn
              · exact hd
            · intro n hm hzero
              rcases List.mem_append.1 hm with hm | hm
              · exact hz _ _ hl (mem_of_mem_ofBytes hm hzero)
              · exact hs n hm hzero

end Tree
end LineStore
