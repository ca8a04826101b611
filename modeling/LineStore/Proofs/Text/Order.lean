import LineStore.Text.Utf8

/-!
# The order of texts is the order of their bytes

Texts are compared character by character, and files byte by byte. It is the same order, because
each character's bytes are fixed by its digits to the base 64, the first of them first, and a
character with more bytes starts with a larger one (`utf8EncodeChar_append_lt`).
-/

namespace LineStore.Utf8

/-! ## Two characters -/

section

variable {a b : Nat} {x y : Bytes}

private theorem byte_lt (ha : a < 256) (hb : b < 256) (h : a < b) :
    UInt8.ofNat a :: x < UInt8.ofNat b :: y :=
  List.cons_lt_cons_iff.2 (.inl ((UInt8.ofNat_lt_iff_lt ha hb).2 h))

private theorem byte_same (h : a = b) (ht : x < y) : UInt8.ofNat a :: x < UInt8.ofNat b :: y :=
  List.cons_lt_cons_iff.2 (.inr ⟨by rw [h], ht⟩)

end

/-- **The bytes of a smaller character are smaller**, whatever follows either of the two. -/
theorem utf8EncodeChar_append_lt {c d : Char} (h : c < d) (x y : Bytes) :
    String.utf8EncodeChar c ++ x < String.utf8EncodeChar d ++ y := by
  have hlt : c.val.toNat < d.val.toNat := h
  have hmax : d.val.toNat < 0x110000 := by
    rcases d.valid with hv | hv <;> omega
  unfold String.utf8EncodeChar
  dsimp only
  generalize c.val.toNat = v at hlt ⊢
  generalize d.val.toNat = w at hlt hmax ⊢
  by_cases h₁ : w ≤ 0x7f
  · rw [if_pos (by omega), if_pos h₁]
    exact byte_lt (by omega) (by omega) hlt
  rw [if_neg h₁]
  by_cases h₂ : w ≤ 0x7ff
  · rw [if_pos h₂]
    split
    · exact byte_lt (by omega) (by omega) (by omega)
    rw [if_pos (by omega)]
    rcases (by omega : v / 64 < w / 64 ∨ v / 64 = w / 64 ∧ v % 64 < w % 64) with h | ⟨h, h'⟩
    · exact byte_lt (by omega) (by omega) (by omega)
    · exact byte_same (by omega) (byte_lt (by omega) (by omega) (by omega))
  rw [if_neg h₂]
  by_cases h₃ : w ≤ 0xffff
  · rw [if_pos h₃]
    split
    · exact byte_lt (by omega) (by omega) (by omega)
    split
    · exact byte_lt (by omega) (by omega) (by omega)
    rw [if_pos (by omega)]
    rcases (by omega : v / 4096 < w / 4096 ∨ v / 4096 = w / 4096 ∧
      (v / 64 < w / 64 ∨ v / 64 = w / 64 ∧ v % 64 < w % 64)) with h | ⟨h, h' | ⟨h', h''⟩⟩
    · exact byte_lt (by omega) (by omega) (by omega)
    · exact byte_same (by omega) (byte_lt (by omega) (by omega) (by omega))
    · exact byte_same (by omega) (byte_same (by omega) (byte_lt (by omega) (by omega) (by omega)))
  rw [if_neg h₃]
  split
  · exact byte_lt (by omega) (by omega) (by omega)
  split
  · exact byte_lt (by omega) (by omega) (by omega)
  split
  · exact byte_lt (by omega) (by omega) (by omega)
  rcases (by omega : v / 262144 < w / 262144 ∨ v / 262144 = w / 262144 ∧
    (v / 4096 < w / 4096 ∨ v / 4096 = w / 4096 ∧
      (v / 64 < w / 64 ∨ v / 64 = w / 64 ∧ v % 64 < w % 64))) with
    h | ⟨h, h' | ⟨h', h'' | ⟨h'', h'''⟩⟩⟩
  · exact byte_lt (by omega) (by omega) (by omega)
  · exact byte_same (by omega) (byte_lt (by omega) (by omega) (by omega))
  · exact byte_same (by omega) (byte_same (by omega) (byte_lt (by omega) (by omega) (by omega)))
  · exact byte_same (by omega) (byte_same (by omega) (byte_same (by omega)
      (byte_lt (by omega) (by omega) (by omega))))

/-! ## Two texts -/

theorem flatMap_lt {s t : List Char} (h : s < t) :
    s.flatMap String.utf8EncodeChar < t.flatMap String.utf8EncodeChar := by
  induction h with
  | @nil d rest =>
    obtain ⟨byte, more, hd⟩ := List.exists_cons_of_ne_nil (String.utf8EncodeChar_ne_nil (c := d))
    simp [hd]
  | cons _ ih => exact List.append_left_lt ih
  | rel h => exact utf8EncodeChar_append_lt h _ _

/-- **Texts are in the order of their bytes.** -/
theorem encode_lt_iff {s t : String} : encode s < encode t ↔ s < t := by
  constructor
  · intro h
    by_cases hst : s < t
    · exact hst
    · by_cases hts : t < s
      · exact absurd h (List.lt_asymm (flatMap_lt hts))
      · -- Neither comes before the other, so they are one text.
        have he : s = t := String.le_antisymm hts hst
        rw [he] at h
        exact absurd h (List.lt_irrefl _)
  · exact flatMap_lt

end LineStore.Utf8
