import LineStore.Proofs.Documents.Listing

/-!
# The times that are shown

A listing goes by full times and shows each as whole milliseconds in one word. That loses what is
below a millisecond and what is before the epoch, which changes no order. It also loses what does
not fit into the word: from `millisEnd` on the count begins at nothing again. So the times that are
shown are the milliseconds that they should be, and never increase along a listing, **exactly up to
there** (`modified_faithful_iff`).
-/

namespace LineStore

/-- The first moment whose milliseconds do not fit into a word. -/
def millisEnd : Int := 18446744073709551616 * 1000000

/-- `t` nanoseconds from the epoch are `n` whole milliseconds, and none if they are before it. -/
def WholeMillis (t : Int) (n : Nat) : Prop :=
  if t < 0 then n = 0 else (n : Int) * 1000000 ≤ t ∧ t < ((n : Int) + 1) * 1000000

variable {s t bound : Int} {n : Nat}

theorem wholeMillis_iff : WholeMillis t n ↔ n = (t / 1000000).toNat := by
  unfold WholeMillis
  split <;> omega

theorem epochMillis_eq (t : Int) :
    epochMillis t = (t / 1000000).toNat % 18446744073709551616 := rfl

/-- **The milliseconds that are shown are right as long as they fit.** -/
theorem wholeMillis_epochMillis_iff : WholeMillis t (epochMillis t) ↔ t < millisEnd := by
  rw [wholeMillis_iff, epochMillis_eq, millisEnd]
  constructor
  · intro h
    have hfits : (t / 1000000).toNat < 18446744073709551616 := by
      rw [← h]
      exact Nat.mod_lt _ (by decide)
    omega
  · intro h
    exact Nat.mod_eq_of_lt (by omega)

theorem epochMillis_mono (h : s ≤ t) (ht : t < millisEnd) : epochMillis s ≤ epochMillis t := by
  have hs : WholeMillis s (epochMillis s) :=
    wholeMillis_epochMillis_iff.2 (Int.lt_of_le_of_lt h ht)
  have ht : WholeMillis t (epochMillis t) := wholeMillis_epochMillis_iff.2 ht
  rw [wholeMillis_iff] at hs ht
  omega

/-- **A later moment is shown with no smaller number** in any stretch of time that ends before the
milliseconds stop fitting, and in no other. -/
theorem epochMillis_mono_iff :
    (∀ s t, s ≤ t → t ≤ bound → epochMillis s ≤ epochMillis t) ↔ bound < millisEnd := by
  constructor
  · intro h
    by_cases hb : bound < millisEnd
    · exact hb
    · -- The last moment before the end has the largest number, and the end has none.
      have hlast := h (millisEnd - 1) millisEnd (by omega) (by omega)
      exact absurd hlast (by decide +kernel)
  · intro h s t hst ht
    exact epochMillis_mono hst (Int.lt_of_le_of_lt ht h)

namespace Documents

variable {store : Documents} {tree : Tree} {shown : String} {entries : List ListEntry}

theorem Written.unique (hs : store.Written tree shown s) (ht : store.Written tree shown t) :
    s = t := by
  obtain ⟨_, file, hf, rfl⟩ := hs
  obtain ⟨_, other, hf', rfl⟩ := ht
  rw [hf] at hf'
  cases hf'
  rfl

theorem ListsExactly.modified_eq (h : store.ListsExactly tree entries) {e : ListEntry}
    (he : e ∈ entries) (hw : store.Written tree e.name t) : e.modified = epochMillis t := by
  obtain ⟨time, hw', hm⟩ := h.modified e he
  rw [hm, hw'.unique hw]

/-- The numbers along a listing are in its order if none of its times is too late. -/
theorem ListsExactly.pairwise_modified (h : store.ListsExactly tree entries)
    (hfits : ∀ e ∈ entries, ∀ t, store.Written tree e.name t → t < millisEnd) :
    entries.Pairwise fun a b => b.modified ≤ a.modified := by
  apply h.sorted.imp_of_mem
  rintro a b ha hb ⟨s, t, hs, ht, horder⟩
  have hle : t ≤ s := horder.elim Int.le_of_lt fun h => Int.le_of_eq h.1.symm
  rw [h.modified_eq ha hs, h.modified_eq hb ht]
  exact epochMillis_mono hle (hfits a ha s hs)

/-- The numbers along a listing never increase, and they are the times of the files. -/
structure ShowsTimes (store : Documents) (tree : Tree) (entries : List ListEntry) : Prop where
  ordered : entries.Pairwise fun a b => b.modified ≤ a.modified
  whole : ∀ e ∈ entries, ∀ t, store.Written tree e.name t → WholeMillis t e.modified

/-- **The times that are shown follow the order of the listing, and are the ones that the files
have, exactly as long as their milliseconds fit into a word.** A moment is shown as its whole
milliseconds if these fit, and moments up to a bound are shown in their order if the milliseconds of
the bound fit; a listing shows its times if no file was written too late. -/
theorem modified_faithful_iff (t bound : Int) (hl : store.list tree = .ok entries) :
    (WholeMillis t (epochMillis t) ↔ t < millisEnd) ∧
    ((∀ s t, s ≤ t → t ≤ bound → epochMillis s ≤ epochMillis t) ↔ bound < millisEnd) ∧
    (store.ShowsTimes tree entries ↔
      ∀ e ∈ entries, ∀ t, store.Written tree e.name t → t < millisEnd) := by
  have hlist : store.ListsExactly tree entries := listsExactly_of_list hl
  refine ⟨wholeMillis_epochMillis_iff, epochMillis_mono_iff, ?_, ?_⟩
  · rintro ⟨-, hright⟩ e he t hw
    have hwhole : WholeMillis t e.modified := hright e he t hw
    rw [hlist.modified_eq he hw] at hwhole
    exact wholeMillis_epochMillis_iff.1 hwhole
  · intro hfits
    refine ⟨hlist.pairwise_modified hfits, ?_⟩
    intro e he t hw
    rw [hlist.modified_eq he hw]
    exact wholeMillis_epochMillis_iff.2 (hfits e he t hw)

/-- A root with two files, written at the given times. -/
def agesTree (s t : Instant) : Tree :=
  ((Tree.empty.attach [] [0x64] .directory).attach
    [[0x64]] (Utf8.encode "b.txt") (.file ⟨0, [], t⟩)).attach
    [[0x64]] (Utf8.encode "a.txt") (.file ⟨1, [], s⟩)

theorem list_agesTree {s t : Instant} (h : s < t) :
    list ⟨⟨true, [.name [0x64]], false⟩⟩ (agesTree s t) =
      .ok [⟨"b", epochMillis t⟩, ⟨"a", epochMillis s⟩] := by
  have hr : (agesTree s t).readDirectory ⟨true, [.name [0x64]], false⟩ =
      .ok ([[0x64]], [Utf8.encode "a.txt", Utf8.encode "b.txt"]) := rfl
  have hf : [Utf8.encode "a.txt", Utf8.encode "b.txt"].filterMapM
      (listed? ⟨⟨true, [.name [0x64]], false⟩⟩ (agesTree s t)) = .ok [(s, "a"), (t, "b")] := rfl
  have hs : Listing.sort [(s, "a"), (t, "b")] = [(t, "b"), (s, "a")] :=
    Listing.sort_eq_of_perm (.swap _ _ _)
      (List.pairwise_pair.2 (Listing.precedes_iff.2 (.inl h)))
  rw [list, hr]
  dsimp only
  rw [hf]
  dsimp only
  rw [Listing.ofFound, hs]
  rfl

/-- One file was written in the last millisecond that fits, and the other one before the epoch. -/
theorem modified_faithful_iff_ages :
    list ⟨⟨true, [.name [0x64]], false⟩⟩ (agesTree (-1) (millisEnd - 1)) =
        .ok [⟨"b", 18446744073709551615⟩, ⟨"a", 0⟩] ∧
      ShowsTimes ⟨⟨true, [.name [0x64]], false⟩⟩ (agesTree (-1) (millisEnd - 1))
        [⟨"b", 18446744073709551615⟩, ⟨"a", 0⟩] := by
  have hl : list ⟨⟨true, [.name [0x64]], false⟩⟩ (agesTree (-1) (millisEnd - 1)) =
      .ok [⟨"b", 18446744073709551615⟩, ⟨"a", 0⟩] := list_agesTree (by decide)
  refine ⟨hl, (modified_faithful_iff 0 0 hl).2.2.2 ?_⟩
  intro e he t hw
  simp only [List.mem_cons, List.not_mem_nil, or_false] at he
  rcases he with rfl | rfl
  · obtain ⟨_, _, hf, rfl⟩ := hw
    cases hf
    decide
  · obtain ⟨_, _, hf, rfl⟩ := hw
    cases hf
    decide

/-- **A file that is written when milliseconds stop fitting is listed first, and shown as if it were
older than all others**, though a clock of 64-bit seconds has room for that moment. -/
theorem modified_increases_late :
    millisEnd < 9223372036854775808 * 1000000000 ∧
      list ⟨⟨true, [.name [0x64]], false⟩⟩ (agesTree 1000000000 millisEnd) =
        .ok [⟨"b", 0⟩, ⟨"a", 1000⟩] ∧
      ¬ [ListEntry.mk "b" 0, ⟨"a", 1000⟩].Pairwise fun a b => b.modified ≤ a.modified :=
  ⟨by decide, list_agesTree (by decide), by simp⟩

end Documents
end LineStore
