import LineStore.Files.Calls
import LineStore.Proofs.Files.Trail

/-!
# Entries in another order

A directory lists its entries in no order that means anything, and here that is the order of the
tree's entries. Two trees with the same entries in two orders are asked by paths alike, since a walk
only ever asks **what is at a location** (`walk_congr`). What can differ is the order in which the
names of a directory come.
-/

namespace LineStore.Tree

variable {tree other : Tree} {ending : Ending}

/-- Trees that look the same everywhere are walked alike. -/
theorem walk_congr (h : ∀ loc, tree.get? loc = other.get? loc) : ∀ links dir steps,
    tree.walk ending links dir steps = other.walk ending links dir steps := by
  apply walk_induction
  case done =>
    intro links dir
    rw [walk_nil, walk_nil]
  case stay =>
    intro links dir step rest hs ih
    rw [walk_stays hs, walk_stays hs]
    exact ih
  case up =>
    intro links dir rest ih
    rw [walk_up, walk_up]
    exact ih
  case name =>
    intro links dir n rest ih jump
    rw [walk_name, walk_name, h, ih]
    split
    · rfl
    split
    · rfl
    cases other.get? (n :: dir) with
    | none => rfl
    | some node =>
      cases node with
      | directory => rfl
      | file f => rfl
      | link target =>
        dsimp only
        cases links with
        | zero => rfl
        | succ links => rw [hop, hop, jump links _ _ rfl]

/-- The same entries, in some order, and the same directory to start in. -/
structure Reordered (tree other : Tree) : Prop where
  entries : tree.entries.Perm other.entries
  cwd : tree.cwd = other.cwd

namespace Reordered

variable (h : tree.Reordered other)

include h

theorem symm : other.Reordered tree := ⟨h.entries.symm, h.cwd.symm⟩

theorem follow_eq (p : Path) : tree.follow p = other.follow p := by
  have hget : ∀ loc, tree.get? loc = other.get? loc := get?_congr fun _ => h.entries.mem_iff
  have hstart : tree.start p = other.start p := by rw [start, start, h.cwd]
  rw [follow, follow, locate, locate, hstart]
  cases p.fault? with
  | some e => rfl
  | none => rw [walk_congr hget]

theorem children_perm (dir : Location) : (tree.children dir).Perm (other.children dir) :=
  (h.entries.filter _).map _

/-- **A directory is read with the same names**, or not at all. -/
theorem readDirectory_ok {p : Path} {home : Location} {names : List Name}
    (hr : tree.readDirectory p = .ok (home, names)) :
    ∃ others, other.readDirectory p = .ok (home, others) ∧ names.Perm others := by
  unfold readDirectory at hr ⊢
  rw [← h.follow_eq]
  split at hr
  · cases hr
    exact ⟨_, rfl, (h.children_perm _).map _⟩
  · cases hr
  · cases hr

theorem readDirectory_error {p : Path} {e : FileError} (hr : tree.readDirectory p = .error e) :
    other.readDirectory p = .error e := by
  unfold readDirectory at hr ⊢
  rw [← h.follow_eq]
  split at hr
  · cases hr
  · exact hr
  · exact hr

end Reordered
end LineStore.Tree
