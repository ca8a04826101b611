import LineStore.Decimal.Shortest

/-!
# From decimals to doubles and from doubles to whole numbers

`fromDecimal` takes the double nearest to a decimal; beyond the largest that is infinity, and far
below the smallest it is zero. `toWord` takes the whole number nearest to a double, a half going
away from zero, and clamps it to what a word can hold.
-/

namespace LineStore.Decimal

/-- The bits of zero. -/
def zeroBits (negative : Bool) : UInt64 := if negative then 0x8000000000000000 else 0

/-- The bits of infinity. -/
def infinityBits (negative : Bool) : UInt64 :=
  if negative then 0xFFF0000000000000 else 0x7FF0000000000000

/-- The bits of a double that is no number. -/
def nanBits : UInt64 := 0x7FF8000000000000

/-- Whether the bits are those of a number. -/
def isFinite (bits : UInt64) : Bool :=
  match Binary.ofBits bits with
  | .finite .. => true
  | _ => false

/-- The bits of the double nearest to `m * 10 ^ e`. -/
def fromDecimal (negative : Bool) (m : Nat) (e : Int) : UInt64 :=
  let size := (Numeral.write m).length + e
  if m = 0 ∨ size < -330 then zeroBits negative
  else if 310 < size then infinityBits negative
  else
    let f := Float.ofScientific m (e < 0) e.natAbs
    (if negative then -f else f).toBits

/-- The bound of what a word can hold. -/
def wordBound : Nat := UInt64.size

/-- The word nearest to a double. What is no number counts as zero. -/
def toWord (bits : UInt64) : Nat :=
  match Binary.ofBits bits with
  | .nan => 0
  | .infinite negative => if negative then 0 else wordBound - 1
  | .finite negative m q =>
    if negative then 0
    else
      let unit := Nat.pow 2 q.natAbs
      let rounded := if q < 0 then (2 * m + unit) / (2 * unit) else m * unit
      min rounded (wordBound - 1)

end LineStore.Decimal
