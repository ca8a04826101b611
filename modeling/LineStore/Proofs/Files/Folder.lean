import LineStore.Proofs.Files.Unopened

/-!
# The directory of a target

A write is asked for with a path and makes its hidden file beside the path's last name. `folder` is
the path before that name, so the hidden file is in the directory that it leads to, by a path that
is alike (`alike_parent`). The target itself
need not be one: it may end in a separator or in dots. But then nothing is ever published under it,
so **a target of which something comes is a child of its folder** (`exists_child_of_publish_ok`).
-/

namespace LineStore

/-- The last piece is empty only where nothing comes after a separator. -/
theorem eq_nil_or_of_getLast?_splitOnP {α : Type} {p : α → Bool} {xs : List α}
    (h : (xs.splitOnP p).getLast? = some []) : xs = [] ∨ ∃ x, xs.getLast? = some x ∧ p x = true := by
  induction xs with
  | nil => exact .inl rfl
  | cons x rest ih =>
    refine .inr ?_
    have later : (rest.splitOnP p).getLast? = some [] → rest ≠ [] →
        ∃ y, (x :: rest).getLast? = some y ∧ p y = true := by
      intro hl hne
      obtain ⟨y, hy, hp⟩ := (ih hl).resolve_left hne
      exact ⟨y, by rw [List.getLast?_cons, hy]; rfl, hp⟩
    rw [List.splitOnP_cons_eq_if_modifyHead] at h
    obtain ⟨piece, more, hs⟩ := List.exists_cons_of_ne_nil (List.splitOnP_ne_nil p rest)
    by_cases hx : p x = true
    · rw [if_pos hx, hs, List.getLast?_cons_cons, ← hs] at h
      by_cases hr : rest = []
      · exact ⟨x, by rw [hr]; rfl, hx⟩
      · exact later h hr
    · rw [if_neg hx, hs, List.modifyHead_cons] at h
      cases more with
      | nil => simp at h
      | cons next more =>
        rw [List.getLast?_cons_cons] at h
        apply later
        · rw [hs, List.getLast?_cons_cons]
          exact h
        · rintro rfl
          simp at hs

namespace Segment

theorem ofBytes_eq_blank_iff {piece : Bytes} : ofBytes piece = .blank ↔ piece = [] := by
  unfold ofBytes
  split
  · simp [*]
  · split
    · simp [*]
    · split <;> simp [*]

end Segment

namespace Path

variable {p : Path} {n : Name}

/-- The path that ends before the last name, or the whole path where it ends in no name. -/
def folder (p : Path) : Path :=
  match p.segments.reverse.dropWhile Segment.stays with
  | .name _ :: above => ⟨p.absolute, above.reverse, false⟩
  | plain => ⟨p.absolute, plain.reverse, false⟩

/-- The name that the path ends in, if it ends in one. -/
def name? (p : Path) : Option Name :=
  match p.segments.reverse.dropWhile Segment.stays with
  | .name n :: _ => some n
  | _ => none

theorem alike_parent (p : Path) : p.parent.Alike p.folder := by
  have hplain : p.Alike ⟨p.absolute, (p.segments.reverse.dropWhile Segment.stays).reverse, false⟩ :=
    ⟨rfl, (filter_dropWhile_stays p.segments).symm⟩
  unfold parent folder
  generalize p.segments.reverse.dropWhile Segment.stays = last at hplain ⊢
  cases last with
  | nil => exact hplain
  | cons last above =>
    cases last with
    | name n => exact alike_trim _
    | blank | here | up => exact hplain

theorem absolute_folder (p : Path) : p.folder.absolute = p.absolute := by
  unfold folder
  split <;> rfl

@[simp] theorem name?_child (p : Path) (n : Name) : (p.child n).name? = some n := by
  simp [name?, child, Segment.stays]

/-- After its folder, a path has its name and then steps that go nowhere. -/
theorem exists_steps_eq (p : Path) : ∃ stays, (∀ s ∈ stays, s.stays = true) ∧
    p.steps = p.folder.segments ++ (p.name?.toList.map .name ++ stays) := by
  have hsegments : p.segments = (p.segments.reverse.dropWhile Segment.stays).reverse ++
      (p.segments.reverse.takeWhile Segment.stays).reverse := by
    rw [← List.reverse_append, List.takeWhile_append_dropWhile, List.reverse_reverse]
  refine ⟨(p.segments.reverse.takeWhile Segment.stays).reverse ++
    if p.slash then [.blank] else [], ?_, ?_⟩
  · intro s hs
    rcases List.mem_append.1 hs with hs | hs
    · exact List.all_eq_true.1 List.all_takeWhile s (List.mem_reverse.1 hs)
    · split at hs
      · rw [List.mem_singleton.1 hs]
        rfl
      · cases hs
  · have hfront : (p.segments.reverse.dropWhile Segment.stays).reverse =
        p.folder.segments ++ p.name?.toList.map .name := by
      unfold folder name?
      split
      · rename_i hd
        rw [hd]
        simp
      · simp
    rw [← List.append_assoc, ← hfront, ← List.append_assoc, ← hsegments]
    rfl

/-- A path that is read from bytes and ends in a blank step ends in a separator. -/
theorem slash_of_getLast?_ofBytes {b : Bytes}
    (h : (ofBytes b).segments.getLast? = some .blank) : (ofBytes b).slash = true := by
  cases hs : (ofBytes b).slash with
  | true => rfl
  | false =>
    unfold ofBytes at h hs
    dsimp only at h hs
    generalize (if (b.head? == some Segment.separator) = true then b.tail else b) = body at h hs
    rw [hs] at h
    split at h
    · cases h
    · rename_i hne
      rw [if_neg (by simp)] at h
      rw [List.getLast?_map, Option.map_eq_some_iff] at h
      obtain ⟨piece, hp, hb⟩ := h
      rw [Segment.ofBytes_eq_blank_iff.1 hb] at hp
      obtain ⟨x, hx, hsep⟩ := (eq_nil_or_of_getLast?_splitOnP hp).resolve_left hne
      rw [hx] at hs
      rw [beq_iff_eq] at hsep
      rw [hsep] at hs
      simp at hs

end Path

namespace Tree

variable {tree after : Tree} {old new p : Path} {dir : Location} {n : Name}

/-- A name can only be published at the end of a path, with no separator behind it. -/
theorem doorstep_of_rename_ok (h : tree.rename old new = .ok after) :
    new.slash = false ∧ ∃ dir n, tree.doorstep new = .ok (dir, .name n) := by
  unfold rename at h
  split at h
  · cases h
  split at h
  · cases h
  split at h
  · cases h
  · cases h
  · rename_i hd
    split at h
    · cases h
    split at h
    · cases h
    split at h
    · cases h
    split at h
    · cases h
    split at h
    · cases h
    · rename_i hs
      refine ⟨?_, _, _, hd⟩
      simp only [Bool.or_eq_true, not_or, Bool.not_eq_true] at hs
      exact hs.2
  · cases h

theorem doorstep_of_link_ok (h : tree.link old new = .ok after) :
    new.slash = false ∧ ∃ dir n, tree.doorstep new = .ok (dir, .name n) := by
  unfold link at h
  split at h
  · cases h
  split at h
  · cases h
  split at h
  · cases h
  · cases h
  split at h
  · cases h
  · rename_i hf
    split at h
    · cases h
    · rename_i hs
      refine ⟨by simpa using hs, ?_⟩
      unfold freeName at hf
      split at hf
      · exact ⟨_, _, ‹_›⟩
      · cases hf
      · cases hf

/-- A path that ends in a name and in nothing else is a child of its folder. -/
theorem eq_child_of_doorstep (hs : p.slash = false) (hb : p.segments.getLast? ≠ some .blank)
    (h : tree.doorstep p = .ok (dir, .name n)) : p = p.folder.child n := by
  unfold doorstep at h
  split at h
  · cases h
  have hdrop : p.segments.reverse.dropWhile (· = .blank) = p.segments.reverse := by
    cases hr : p.segments.reverse with
    | nil => rfl
    | cons last above =>
      apply List.dropWhile_cons_of_neg
      rw [List.getLast?_eq_head?_reverse, hr] at hb
      simpa using hb
  rw [hdrop] at h
  split at h
  · cases h
  · rename_i last above hr
    have hlast : last = .name n := by
      split at h
      · cases h
        rfl
      · cases h
      · cases h
    have hp : p.segments = above.reverse ++ [.name n] := by
      rw [← List.reverse_reverse p.segments, hr, hlast, List.reverse_cons]
    cases p with
    | mk absolute segments slash =>
      dsimp only at hs hp
      rw [hs, hp]
      simp [Path.folder, Path.child, Segment.stays]

end Tree

/-- **A write of which something comes has a child of its folder for a target.** -/
theorem AtomicWrite.exists_child_of_publish_ok {w : AtomicWrite} {b : Bytes} {tree after : Tree}
    (ht : w.target = .ofBytes b) (h : w.publish tree = .ok after) :
    ∃ n, w.target = w.target.folder.child n := by
  have hd : w.target.slash = false ∧ ∃ dir n, tree.doorstep w.target = .ok (dir, .name n) := by
    unfold publish at h
    split at h
    · exact Tree.doorstep_of_rename_ok h
    · exact Tree.doorstep_of_link_ok h
  obtain ⟨hs, dir, n, hd⟩ := hd
  refine ⟨n, Tree.eq_child_of_doorstep hs (fun hb => ?_) hd⟩
  rw [ht] at hs hb
  rw [Path.slash_of_getLast?_ofBytes hb] at hs
  cases hs

end LineStore
