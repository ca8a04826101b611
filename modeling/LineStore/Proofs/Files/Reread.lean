import LineStore.Proofs.Files.OneEntry

/-!
# Reading what was just written

A path leads to what was written at its last name as long as it still leads to the directory. It
can fail to: where the directory is reached **through the entry itself**, by a link of that name,
replacing the link takes the way along. `OpensWithout` says that the way does without the entry, and
a path is good for reading after the write exactly if its way does (`readBytes_place`,
`readBytes_place_blocked`).
-/

namespace LineStore
namespace Tree

variable {tree other : Tree} {root : Path} {home loc dir last : Location} {n : Name} {node : Node}
  {file : File} {links left : Nat} {steps : List Segment}

/-- The path leads to the directory without its entry `n`. -/
def OpensWithout (tree : Tree) (root : Path) (home : Location) (n : Name) : Prop :=
  (tree.detach (n :: home)).Opens root home

/-- **Where a file takes the place of one entry, a trail is kept or ends at that file.** -/
theorem Leads.or_blocked (hv : ∀ at', at' ≠ loc → other.get? at' = tree.get? at')
    (hf : other.get? loc = some (.file file)) (h : tree.Leads links dir steps left last) :
    other.Leads links dir steps left last ∨ ∀ rest, rest ≠ [] →
      other.walk .followed links dir (steps ++ rest) = .error .notDirectory := by
  -- A step to the entry itself finds a file, and there is more to do.
  have stop : ∀ {links : Nat} {dir : Location} {m : Name} {more : List Segment},
      m.length ≤ nameLimit → m :: dir = loc → ∀ rest, rest ≠ [] →
        other.walk .followed links dir (.name m :: more ++ rest) = .error .notDirectory := by
    intro links dir m more hm hl rest hr
    rw [List.cons_append, walk_name, if_neg (by simp), if_neg (by omega), hl, hf]
    dsimp only
    rw [if_neg (by simp [hr])]
  induction h with
  | done => exact .inl .done
  | stay hs _ ih =>
    rcases ih with ih | ih
    · exact .inl (.stay hs ih)
    · refine .inr fun rest hr => ?_
      rw [List.cons_append, walk_stays hs]
      exact ih rest hr
  | up _ ih =>
    rcases ih with ih | ih
    · exact .inl (.up ih)
    · refine .inr fun rest hr => ?_
      rw [List.cons_append, walk_up]
      exact ih rest hr
  | @enter links left dir last m more hm hd _ ih =>
    by_cases hl : m :: dir = loc
    · exact .inr (stop hm hl)
    · have hd' : other.get? (m :: dir) = some .directory := (hv _ hl).trans hd
      rcases ih with ih | ih
      · exact .inl (.enter hm hd' ih)
      · refine .inr fun rest hr => ?_
        rw [List.cons_append, walk_name, if_neg (by simp), if_neg (by omega), hd']
        exact ih rest hr
  | @hop links left dir last m target more hm ht hne _ ih =>
    by_cases hl : m :: dir = loc
    · exact .inr (stop hm hl)
    · have ht' : other.get? (m :: dir) = some (.link target) := (hv _ hl).trans ht
      rcases ih with ih | ih
      · exact .inl (.hop hm ht' hne ih)
      · refine .inr fun rest hr => ?_
        rw [List.cons_append, walk_name, if_neg (by simp), if_neg (by omega), ht']
        dsimp only
        rw [if_neg (by simp), Tree.hop, hne, if_neg (by simp), ← List.append_assoc]
        exact ih rest hr

/-- Placing a file leaves as many ways as taking the entry away. -/
theorem opens_place_iff (hd : tree.get? home = some .directory)
    (hn : tree.get? (n :: home) ≠ some .directory) :
    (tree.place home n (.file file)).Opens root home ↔ tree.OpensWithout root home n := by
  have hplace := get?_place (.file file) hd hn
  have hgone := get?_detach hn
  constructor
  · intro h
    refine h.mono (fun at' node hf hg => ?_) (by rw [place_cwd, detach_cwd])
    rw [hplace] at hg
    rw [hgone]
    by_cases hl : at' = n :: home
    · rw [if_pos hl] at hg
      exact absurd (Option.some.inj hg).symm (hf file)
    · rw [if_neg hl] at hg ⊢
      exact hg
  · intro h
    refine h.mono (fun at' node hf hg => ?_) (by rw [place_cwd, detach_cwd])
    rw [hgone] at hg
    rw [hplace]
    by_cases hl : at' = n :: home
    · rw [if_pos hl] at hg
      cases hg
    · rw [if_neg hl] at hg ⊢
      exact hg

theorem Opens.readBytes_child (h : tree.Opens root home) (hr : root.refusal? n = none)
    (hg : tree.get? (n :: home) = some (.file file)) :
    tree.readBytes (root.child n) = .ok file.bytes := by
  rw [readBytes, h.follow_child (by rw [hg]; simp), hr, hg]

/-- **What was placed is read by its path**, if the path does without what it replaced. -/
theorem readBytes_place (hd : tree.get? home = some .directory)
    (hn : tree.get? (n :: home) ≠ some .directory) (hr : root.refusal? n = none)
    (hw : tree.OpensWithout root home n) :
    (tree.place home n (.file file)).readBytes (root.child n) = .ok file.bytes := by
  apply ((opens_place_iff hd hn).2 hw).readBytes_child hr
  rw [get?_place (.file file) hd hn, if_pos rfl]

/-- Otherwise the path now leads through a file. -/
theorem readBytes_place_blocked (ho : tree.Opens root home)
    (hn : tree.get? (n :: home) ≠ some .directory) (hr : root.refusal? n = none)
    (hw : ¬ tree.OpensWithout root home n) :
    (tree.place home n (.file file)).readBytes (root.child n) = .error .notDirectory := by
  have hplace := get?_place (.file file) ho.directory hn
  obtain ⟨left, hl⟩ := ho.trail
  have hstart : (tree.place home n (.file file)).start (root.child n) = tree.start root := by
    rw [start, start, place_cwd]
    rfl
  have hrest : ∀ at', at' ≠ n :: home →
      (tree.place home n (.file file)).get? at' = tree.get? at' := by
    intro at' ha
    rw [hplace, if_neg ha]
  have hfile : (tree.place home n (.file file)).get? (n :: home) = some (.file file) := by
    rw [hplace, if_pos rfl]
  have hwalk := (hl.or_blocked hrest hfile).resolve_left ?_ [.name n] (by simp)
  · rw [readBytes, Tree.follow, locate, (Path.refusal?_eq_none_iff.1 hr).1]
    dsimp only
    rw [Path.steps_child, hstart, hwalk]
    rfl
  · intro hl'
    apply hw
    apply (opens_place_iff ho.directory hn).1
    refine ⟨⟨left, ?_⟩, ?_⟩
    · rw [start, place_cwd]
      exact hl'
    · rw [hplace, if_neg (by simp)]
      exact ho.directory

end Tree
end LineStore
