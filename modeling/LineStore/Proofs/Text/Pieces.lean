/-!
# The pieces of a cut list

Cutting a list at some of its elements gives pieces that hold elements of the list and none of those
that were cut at. Putting pieces together that hold none of them either, with one such element
before each, is undone by the cut (`splitOnP_joined`). Words of a line and names of a path are both
cut and put together in this way.
-/

namespace LineStore

variable {α : Type} {p : α → Bool} {s w : List α} {a : α}

theorem mem_of_mem_splitOnP (hw : w ∈ s.splitOnP p) (ha : a ∈ w) : a ∈ s := by
  induction s generalizing w with
  | nil =>
    rw [List.splitOnP_nil, List.mem_singleton] at hw
    rwa [hw] at ha
  | cons b rest ih =>
    rw [List.splitOnP_cons_eq_if_modifyHead] at hw
    split at hw
    · rcases List.mem_cons.1 hw with rfl | hw
      · cases ha
      · exact .tail b (ih hw ha)
    · cases hs : rest.splitOnP p with
      | nil =>
        rw [hs] at hw
        cases hw
      | cons first more =>
        rw [hs, List.modifyHead_cons] at hw
        rcases List.mem_cons.1 hw with rfl | hw
        · rcases List.mem_cons.1 ha with rfl | ha
          · exact List.mem_cons_self
          · exact .tail b (ih (hs ▸ List.mem_cons_self) ha)
        · exact .tail b (ih (hs ▸ List.mem_cons_of_mem _ hw) ha)

/-- No piece holds an element that was cut at. -/
theorem not_of_mem_splitOnP (hw : w ∈ s.splitOnP p) (ha : a ∈ w) : p a = false := by
  induction s generalizing w with
  | nil =>
    rw [List.splitOnP_nil, List.mem_singleton] at hw
    rw [hw] at ha
    cases ha
  | cons b rest ih =>
    rw [List.splitOnP_cons_eq_if_modifyHead] at hw
    split at hw
    · rcases List.mem_cons.1 hw with rfl | hw
      · cases ha
      · exact ih hw ha
    · rename_i hb
      cases hs : rest.splitOnP p with
      | nil =>
        rw [hs] at hw
        cases hw
      | cons first more =>
        rw [hs, List.modifyHead_cons] at hw
        rcases List.mem_cons.1 hw with rfl | hw
        · rcases List.mem_cons.1 ha with rfl | ha
          · simpa using hb
          · exact ih (hs ▸ List.mem_cons_self) ha
        · exact ih (hs ▸ List.mem_cons_of_mem _ hw) ha

/-- **What is put together from pieces is cut into them again.** -/
theorem splitOnP_joined {sep : α} (hsep : p sep = true) {pieces : List (List α)}
    (hw : ∀ a ∈ w, p a = false) (hp : ∀ piece ∈ pieces, ∀ a ∈ piece, p a = false) :
    (w ++ pieces.flatMap (sep :: ·)).splitOnP p = w :: pieces := by
  induction pieces generalizing w with
  | nil => rw [List.flatMap_nil, List.append_nil, List.splitOnP_eq_singleton hw]
  | cons piece rest ih =>
    have hrest : (piece ++ rest.flatMap (sep :: ·)).splitOnP p = piece :: rest :=
      ih (hp piece List.mem_cons_self) fun next hn => hp next (List.mem_cons_of_mem _ hn)
    rw [List.flatMap_cons, List.cons_append, List.splitOnP_append_cons _ _ hsep, hrest,
      List.splitOnP_eq_singleton hw]
    rfl

end LineStore
