import LineStore.Text.Line
import LineStore.Text.Numeral

/-!
# ASCII characters as bytes

An ASCII character is one byte, and that byte is part of no other character (`ascii_mem_encode`). So
a question about a byte of a file name or of a line is one about a character of its text: whether a
name holds a zero, whether a line goes on.
-/

namespace LineStore

namespace Utf8

theorem ascii_mem_utf8EncodeChar {a c : Char} (ha : a.toNat < 0x80) :
    UInt8.ofNat a.toNat ∈ String.utf8EncodeChar c ↔ c = a := by
  have hz : ∀ v : Nat, UInt8.ofNat a.toNat = UInt8.ofNat v ↔ a.toNat = v % 256 := by
    intro v
    rw [← UInt8.toNat_inj, UInt8.toNat_ofNat', UInt8.toNat_ofNat',
      Nat.mod_eq_of_lt (Nat.lt_trans ha (by decide))]
  have hv : c.toNat < 0x110000 := by
    rcases c.valid with h | ⟨_, h⟩
    · exact Nat.lt_trans h (by decide)
    · exact h
  rw [← Char.toNat_inj]
  unfold String.utf8EncodeChar
  change c.val.toNat < 0x110000 at hv
  change _ ↔ c.val.toNat = a.toNat
  dsimp only
  split
  · simp only [List.mem_cons, List.not_mem_nil, or_false, hz]
    omega
  · split
    · simp only [List.mem_cons, List.not_mem_nil, or_false, hz]
      omega
    · split
      · simp only [List.mem_cons, List.not_mem_nil, or_false, hz]
        omega
      · simp only [List.mem_cons, List.not_mem_nil, or_false, hz]
        omega

/-- **An ASCII byte of a text is that character.** -/
theorem ascii_mem_encode {a : Char} (ha : a.toNat < 0x80) {s : String} :
    UInt8.ofNat a.toNat ∈ encode s ↔ a ∈ s.toList := by
  rw [encode, List.mem_flatMap]
  constructor
  · rintro ⟨c, hc, hb⟩
    exact (ascii_mem_utf8EncodeChar ha).1 hb ▸ hc
  · intro h
    exact ⟨_, h, (ascii_mem_utf8EncodeChar ha).2 rfl⟩

/-- A text whose first byte is an ASCII character starts with that character. -/
theorem head?_of_ascii_encode {a : Char} (ha : a.toNat < 0x80) {s : String}
    (h : (encode s).head? = some (UInt8.ofNat a.toNat)) : s.toList.head? = some a := by
  unfold encode at h
  cases hs : s.toList with
  | nil => rw [hs] at h; cases h
  | cons c rest =>
    obtain ⟨b, more, hb⟩ := List.exists_cons_of_ne_nil (String.utf8EncodeChar_ne_nil (c := c))
    rw [hs, List.flatMap_cons, hb, List.cons_append, List.head?_cons] at h
    have hm : UInt8.ofNat a.toNat ∈ String.utf8EncodeChar c := by
      rw [hb, ← Option.some.inj h]
      exact List.mem_cons_self
    rw [(ascii_mem_utf8EncodeChar ha).1 hm, List.head?_cons]

theorem zero_mem_encode {s : String} : 0 ∈ encode s ↔ '\x00' ∈ s.toList :=
  ascii_mem_encode (a := '\x00') (by decide)

theorem lineEnd_mem_encode {s : String} : Text.lineEnd ∈ encode s ↔ '\n' ∈ s.toList :=
  ascii_mem_encode (a := '\n') (by decide)

theorem length_encode_ofList {cs : List Char} (h : ∀ c ∈ cs, c.val ≤ 127) :
    (encode (String.ofList cs)).length = cs.length := by
  rw [encode_ofList]
  induction cs with
  | nil => rfl
  | cons c rest ih =>
    have hc : c.utf8Size = 1 := Char.utf8Size_eq_one_iff.2 (h c List.mem_cons_self)
    rw [List.flatMap_cons, List.length_append, String.length_utf8EncodeChar, hc,
      ih fun d hd => h d (List.mem_cons_of_mem _ hd), List.length_cons, Nat.add_comm]

end Utf8

namespace Numeral

theorem isDigit_of_mem_write {n : Nat} {c : Char} (h : c ∈ write n) : c.isDigit = true :=
  Nat.isDigit_of_mem_toDigits (by decide) (by decide) h

theorem not_mem_write {n : Nat} {c : Char} (h : c.isDigit = false) : c ∉ write n := by
  intro hc
  rw [isDigit_of_mem_write hc] at h
  cases h

end Numeral

end LineStore
