import LineStore.Proofs.Text.Order
import LineStore.Store.Listing

/-!
# The order of a listing

By `precedes` the later of two moments comes first, and at one moment the smaller name, and of any
two documents exactly one comes first. So a sorted list is settled by **what is in it**
(`sort_eq_of_perm`), and the order in which documents were found does not show.
-/

namespace LineStore.Listing

theorem precedes_iff {a b : Instant × String} :
    precedes a b = true ↔ b.1 < a.1 ∨ a.1 = b.1 ∧ a.2 ≤ b.2 := by
  simp [precedes]

theorem precedes_trans (a b c : Instant × String) (hab : precedes a b = true)
    (hbc : precedes b c = true) : precedes a c = true := by
  rw [precedes_iff] at hab hbc ⊢
  rcases hab with hab | ⟨hab, hn⟩
  · rcases hbc with hbc | ⟨hbc, _⟩
    · exact .inl (Int.lt_trans hbc hab)
    · exact .inl (hbc ▸ hab)
  · rw [hab]
    exact hbc.imp_right fun h => ⟨h.1, String.le_trans hn h.2⟩

theorem precedes_total (a b : Instant × String) :
    (precedes a b || precedes b a) = true := by
  rw [Bool.or_eq_true, precedes_iff, precedes_iff]
  rcases Int.lt_trichotomy a.1 b.1 with hl | he | hg
  · exact .inr (.inl hl)
  · exact (String.le_total a.2 b.2).imp (fun h => .inr ⟨he, h⟩) fun h => .inr ⟨he.symm, h⟩
  · exact .inl (.inl hg)

theorem precedes_antisymm {a b : Instant × String} (hab : precedes a b = true)
    (hba : precedes b a = true) : a = b := by
  rw [precedes_iff] at hab hba
  rcases hab with hab | ⟨ht, hab⟩
  · rcases hba with hba | ⟨hba, _⟩
    · exact absurd hba (Int.lt_asymm hab)
    · exact absurd hba (Int.ne_of_lt hab)
  · rcases hba with hba | ⟨_, hba⟩
    · exact absurd ht (Int.ne_of_lt hba)
    · exact Prod.ext ht (String.le_antisymm hab hba)

/-- Of two documents with two names, the one that comes first is the later one, or of one moment and
with the smaller name, byte by byte. -/
theorem before_of_precedes {a b : Instant × String} (h : precedes a b = true) (hne : a.2 ≠ b.2) :
    b.1 < a.1 ∨ a.1 = b.1 ∧ Utf8.encode a.2 < Utf8.encode b.2 := by
  rw [precedes_iff] at h
  rcases h with h | ⟨ht, hle⟩
  · exact .inl h
  · refine .inr ⟨ht, Utf8.encode_lt_iff.2 ?_⟩
    by_cases hlt : a.2 < b.2
    · exact hlt
    · exact absurd (String.le_antisymm hle hlt) hne

theorem pairwise_sort (found : List (Instant × String)) :
    (sort found).Pairwise fun a b => precedes a b = true :=
  List.pairwise_mergeSort precedes_trans precedes_total found

/-- **Sorting gives the one sorted list** that has the same documents. -/
theorem sort_eq_of_perm {found ordered : List (Instant × String)} (hp : found.Perm ordered)
    (ho : ordered.Pairwise fun a b => precedes a b = true) : sort found = ordered := by
  refine List.Perm.eq_of_pairwise ?_ (pairwise_sort found) ho
    ((List.mergeSort_perm found _).trans hp)
  intro a b _ _ hab hba
  exact precedes_antisymm hab hba

theorem ofFound_congr {found other : List (Instant × String)} (hp : found.Perm other) :
    ofFound found = ofFound other := by
  have hs : sort found = sort other :=
    sort_eq_of_perm (hp.trans (List.mergeSort_perm other _).symm) (pairwise_sort other)
  rw [ofFound, hs, ofFound]

end LineStore.Listing
