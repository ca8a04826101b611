/-!
# Text as bytes

Files and connections carry bytes; names, documents and commands are text. This file is the only
place where one becomes the other. `encode` writes each character in turn, so it distributes over
concatenation; `decode?` accepts exactly what `encode` writes (`decode?_eq_some_iff`), which is what
lets a file be *refused* as text rather than repaired.

`decodeLossy` is for showing a name that is not text to a person: it never fails, and each stretch
that cannot begin a character becomes one replacement character.
-/

namespace LineStore

/-- Bytes, in order. -/
abbrev Bytes := List UInt8

namespace Utf8

/-! ## Exact reading and writing -/

/-- The bytes of `s`, character by character. -/
def encode (s : String) : Bytes := s.toList.flatMap String.utf8EncodeChar

/-- The text that `b` spells, if it spells one. -/
def decode? (b : Bytes) : Option String := String.fromUTF8? b.toByteArray

theorem toByteArray_encode (s : String) : (encode s).toByteArray = s.toByteArray := by
  conv => rhs; rw [← String.ofList_toList (s := s), String.toByteArray_ofList]
  rfl

@[simp] theorem encode_ofList (cs : List Char) :
    encode (String.ofList cs) = cs.flatMap String.utf8EncodeChar := by
  simp [encode]

@[simp] theorem encode_append (s t : String) : encode (s ++ t) = encode s ++ encode t := by
  simp [encode]

@[simp] theorem decode?_encode (s : String) : decode? (encode s) = some s := by
  unfold decode? String.fromUTF8?
  rw [dif_pos (by rw [toByteArray_encode]; exact s.isValidUTF8)]
  congr 1
  apply String.toByteArray_inj.1
  simp [String.fromUTF8, toByteArray_encode]

theorem encode_of_decode? {b : Bytes} {s : String} (h : decode? b = some s) : encode s = b := by
  unfold decode? String.fromUTF8? at h
  split at h
  · rename_i hb
    simp only [Option.some.injEq] at h
    subst h
    exact List.toByteArray_inj.1 (by rw [toByteArray_encode]; rfl)
  · simp at h

/-- Reading accepts exactly what writing produces. -/
theorem decode?_eq_some_iff {b : Bytes} {s : String} : decode? b = some s ↔ b = encode s :=
  ⟨fun h => (encode_of_decode? h).symm, fun h => h ▸ decode?_encode s⟩

theorem encode_injective {s t : String} (h : encode s = encode t) : s = t := by
  have := congrArg decode? h
  simpa using this

/-! ## Reading for display -/

/-- Whether a byte continues a character. -/
def isTail (b : UInt8) : Bool := 0x80 ≤ b && b ≤ 0xBF

/-- The bounds of the second byte after `b`, and how many bytes the whole character has; nothing
if no character starts with `b`. -/
def lead? (b : UInt8) : Option (UInt8 × UInt8 × Nat) :=
  if b ≤ 0x7F then some (0, 0, 1)
  else if 0xC2 ≤ b && b ≤ 0xDF then some (0x80, 0xBF, 2)
  else if b == 0xE0 then some (0xA0, 0xBF, 3)
  else if b == 0xED then some (0x80, 0x9F, 3)
  else if 0xE1 ≤ b && b ≤ 0xEF then some (0x80, 0xBF, 3)
  else if b == 0xF0 then some (0x90, 0xBF, 4)
  else if 0xF1 ≤ b && b ≤ 0xF3 then some (0x80, 0xBF, 4)
  else if b == 0xF4 then some (0x80, 0x8F, 4)
  else none

/-- How many bytes at the front belong together, at least one of a non-empty list, and whether
they are a whole character. A broken stretch ends where no character could go on. -/
def stretch : Bytes → Nat × Bool
  | [] => (0, false)
  | b :: rest =>
    match lead? b with
    | none => (1, false)
    | some (_, _, 1) => (1, true)
    | some (low, high, width) =>
      match rest with
      | [] => (1, false)
      | second :: others =>
        if low ≤ second && second ≤ high then
          let tails := ((others.take (width - 2)).takeWhile isTail).length
          (2 + tails, tails + 2 == width)
        else (1, false)

/-- `decodeLossy` on at most `limit` stretches. -/
def decodeStretches : Nat → Bytes → List Char
  | 0, _ => []
  | _ + 1, [] => []
  | limit + 1, b :: rest =>
    let (taken, whole) := stretch (b :: rest)
    let shown := if whole then ((decode? ((b :: rest).take taken)).getD "\uFFFD").toList
      else ['\uFFFD']
    shown ++ decodeStretches limit ((b :: rest).drop taken)

/-- The text of `b` with a replacement character for each stretch that is no text. -/
def decodeLossy (b : Bytes) : String := String.ofList (decodeStretches b.length b)

end Utf8
end LineStore
