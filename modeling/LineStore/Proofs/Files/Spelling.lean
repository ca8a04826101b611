import LineStore.Proofs.Files.Standing

/-!
# Locations as text

A location is shown as text, name after name from the root. Read again as a path, the text is the
straight way to the location (`ofBytes_display`), and has its length, if each name can be told from
the text: it holds no separator, and none of the pieces that say something else is called like it.
These are the names that paths can hold (`spellable_of_mem_ofBytes`), and the only ones that the
entries of a file system have (`Tree.Named`).
-/

namespace LineStore

variable {loc dir : Location} {n : Name} {b : Bytes}

/-- A name that is one piece of a path, and not nothing, a dot or two dots. -/
structure Spellable (n : Name) : Prop where
  whole : Segment.separator ∉ n
  filled : n ≠ []
  dot : n ≠ [0x2E]
  dots : n ≠ [0x2E, 0x2E]

theorem Segment.ofBytes_eq_name_iff :
    ofBytes n = .name n ↔ n ≠ [] ∧ n ≠ [0x2E] ∧ n ≠ [0x2E, 0x2E] := by
  unfold ofBytes
  split
  · simp_all
  · split
    · simp_all
    · split <;> simp_all

/-- **A path that is read from bytes holds only names that can be spelled.** -/
theorem spellable_of_mem_ofBytes (hn : .name n ∈ (Path.ofBytes b).segments) : Spellable n := by
  obtain ⟨hname, inner, -, hp⟩ := Tree.exists_piece_of_mem_ofBytes hn
  obtain ⟨hne, hdot, hdots⟩ := Segment.ofBytes_eq_name_iff.1 hname
  refine ⟨fun hs => ?_, hne, hdot, hdots⟩
  have := not_of_mem_splitOnP hp hs
  simp at this

namespace Location

theorem display_cons (n : Name) (dir : Location) :
    display (n :: dir) =
      (dir.reverse.flatMap fun name => Segment.separator :: name) ++ Segment.separator :: n := by
  simp [display]

/-- The names of a location, from the root, after the separator in front. -/
theorem exists_display (hne : loc ≠ []) : ∃ first more, loc.reverse = first :: more ∧
    display loc = Segment.separator :: (first ++ more.flatMap (Segment.separator :: ·)) := by
  obtain ⟨first, more, hr⟩ := List.exists_cons_of_ne_nil (List.reverse_ne_nil_iff.2 hne)
  refine ⟨first, more, hr, ?_⟩
  rw [display, if_neg hne, hr, List.flatMap_cons, List.cons_append]

end Location

namespace Path

theorem getLast?_display (h : Spellable n) (dir : Location) :
    (Location.display (n :: dir)).getLast? ≠ some Segment.separator := by
  rw [Location.display_cons, List.getLast?_append, List.getLast?_cons_of_ne_nil h.filled,
    List.getLast?_eq_some_getLast h.filled, Option.some_or]
  intro hl
  exact h.whole (Option.some.inj hl ▸ List.getLast_mem h.filled)

/-- **Read as a path, the text of a location is the straight way to it.** -/
theorem ofBytes_display (h : ∀ n ∈ loc, Spellable n) :
    ofBytes (Location.display loc) = .ofLocation loc := by
  cases loc with
  | nil => rfl
  | cons n dir =>
    obtain ⟨first, more, hr, hd⟩ := Location.exists_display (List.cons_ne_nil n dir)
    have hall : ∀ m ∈ first :: more, Spellable m := by
      intro m hm
      exact h m (List.mem_reverse.1 (hr ▸ hm))
    have hbody : first ++ more.flatMap (Segment.separator :: ·) ≠ [] := by
      simp [(hall first List.mem_cons_self).filled]
    -- No separator ends the text, which would ask for a directory, since its last name is not empty.
    have hlast := getLast?_display (h n List.mem_cons_self) dir
    rw [hd, List.getLast?_cons_of_ne_nil hbody] at hlast
    have hwhole : ∀ m ∈ first :: more, ∀ x ∈ m, (x == Segment.separator) = false := by
      intro m hm x hx
      rw [beq_eq_false_iff_ne]
      rintro rfl
      exact (hall m hm).whole hx
    have hsplit : (first ++ more.flatMap (Segment.separator :: ·)).splitOnP
        (· == Segment.separator) = first :: more :=
      splitOnP_joined (p := (· == Segment.separator)) BEq.rfl (hwhole first List.mem_cons_self)
        fun piece hp => hwhole piece (List.mem_cons_of_mem _ hp)
    have hnames : (first :: more).map Segment.ofBytes = (first :: more).map .name := by
      apply List.map_congr_left
      intro m hm
      exact Segment.ofBytes_eq_name_iff.2 ⟨(hall m hm).filled, (hall m hm).dot, (hall m hm).dots⟩
    rw [hd]
    generalize first ++ more.flatMap (Segment.separator :: ·) = body at hbody hlast hsplit
    simp [ofBytes, hbody, hlast, hsplit, hnames, ofLocation, hr]

theorem flatten_intersperse_cons (first : Bytes) (more : List Bytes) :
    ((first :: more).intersperse [Segment.separator]).flatten =
      first ++ more.flatMap (Segment.separator :: ·) := by
  induction more generalizing first with
  | nil => simp
  | cons next rest ih =>
    rw [List.intersperse_cons_cons, List.flatten_cons, List.flatten_cons, ih, List.flatMap_cons]
    rfl

/-- The straight way to a location is spelled as the location is shown. -/
theorem toBytes_ofLocation (loc : Location) : (ofLocation loc).toBytes = Location.display loc := by
  have hs : (loc.reverse.map Segment.name).map Segment.toBytes = loc.reverse := by
    rw [List.map_map]
    exact List.map_id _
  unfold toBytes ofLocation
  dsimp only
  rw [hs]
  by_cases hne : loc = []
  · subst hne
    rfl
  · obtain ⟨first, more, hr, hd⟩ := Location.exists_display hne
    rw [hr, hd, flatten_intersperse_cons]
    simp

end Path

namespace Tree

variable {tree : Tree} {node : Node}

/-- Every entry is called by a name that can be spelled, without a zero byte. No file system has
other names. -/
def Named (tree : Tree) : Prop := ∀ e ∈ tree.entries, Spellable e.name ∧ 0 ∉ e.name

namespace Named

theorem empty : Tree.empty.Named := by
  intro e he
  cases he

theorem attach (h : tree.Named) (hn : Spellable n) (hz : 0 ∉ n) : (tree.attach dir n node).Named := by
  by_cases hf : tree.get? dir = some .directory ∧ tree.get? (n :: dir) = none
  · intro e he
    rw [attach_entries hf.1 hf.2] at he
    rcases List.mem_cons.1 he with rfl | he
    · exact ⟨hn, hz⟩
    · exact h e he
  · rwa [Tree.attach, dif_neg hf]

/-- Where something is, all names on the way are names of entries. -/
theorem of_get? (h : tree.Named) (hg : tree.get? loc = some node) :
    ∀ n ∈ loc, Spellable n ∧ 0 ∉ n := by
  induction loc generalizing node with
  | nil =>
    intro n hn
    cases hn
  | cons m dir ih =>
    intro n hn
    rcases List.mem_cons.1 hn with rfl | hn
    · exact h _ (tree.get?_cons_eq_some_iff.1 hg)
    · exact ih (tree.get?_dir hg) n hn

end Named
end Tree
end LineStore
