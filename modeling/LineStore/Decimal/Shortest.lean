import LineStore.Text.Numeral

/-!
# The shortest decimal of a binary number

A double stands for every real that rounds to it. Of the decimals in that interval the ones with the
fewest digits are written, and of those the nearest; the one case that leaves open, a value halfway
between two of them, is the caller's to settle. The search is plain: for one digit, two digits
and so on, the value's two neighbours on the grid of that many digits are tried, in exact
whole-number arithmetic. If a point of a grid lies in the interval, then so does one of the two
neighbours, so the first grid that answers is the shortest. Seventeen digits always answer.
-/

namespace LineStore.Decimal

/-- What the bits of a double say. -/
inductive Binary
  | nan
  | infinite (negative : Bool)
  /-- `m * 2 ^ q`, below zero if `negative`. -/
  | finite (negative : Bool) (m : Nat) (q : Int)
  deriving DecidableEq, Repr

/-- How many doubles share a sign and an exponent. The leading bit of a double, which is not stored,
is worth as much. -/
def fractions : Nat := 0x10000000000000

/-- How many exponents there are. -/
def exponents : Nat := 2048

/-- Takes the bits of a double apart. -/
def Binary.ofBits (bits : UInt64) : Binary :=
  let n := bits.toNat
  let negative := n / fractions / exponents == 1
  let exponent : Nat := n / fractions % exponents
  let fraction : Nat := n % fractions
  if exponent = exponents - 1 then if fraction = 0 then .infinite negative else .nan
  else if exponent = 0 then .finite negative fraction (-1074)
  else .finite negative (fraction + fractions) (exponent - 1075)

/-- A value between the bounds of the reals that round to it, all over one denominator. -/
structure Interval where
  low : Nat
  value : Nat
  high : Nat
  denominator : Nat
  /-- Whether the bounds themselves round to the value. -/
  closed : Bool
  deriving DecidableEq, Repr

/-- The interval of `m * 2 ^ q`. The gap below a power of two is half of the gap above it, unless
the gaps are as small as they get. -/
def Interval.of (m : Nat) (q : Int) : Interval :=
  let below := if m = fractions ∧ -1074 < q then 1 else 2
  let unit := if q < 2 then 1 else Nat.pow 2 (q - 2).toNat
  { low := (4 * m - below) * unit
    value := 4 * m * unit
    high := (4 * m + 2) * unit
    denominator := if q < 2 then Nat.pow 2 (2 - q).toNat else 1
    closed := m % 2 = 0 }

/-- The decimal `d.ddd * 10 ^ exponent`, with the point after the first digit. -/
structure Scientific where
  digits : List Char
  exponent : Int
  deriving DecidableEq, Repr

/-- Whether `10 ^ e ≤ n / d`. -/
def reaches (n d : Nat) (e : Int) : Bool :=
  if e < 0 then d ≤ n * Nat.pow 10 e.natAbs else d * Nat.pow 10 e.natAbs ≤ n

/-- The exponent `e` with `10 ^ e ≤ n / d < 10 ^ (e + 1)`. The binary logarithms of `n` and `d`
leave three exponents to choose from. -/
def leadingExponent (n d : Nat) : Int :=
  let guess := Int.fdiv (((Nat.log2 n : Int) - Nat.log2 d) * 30103) 100000
  if reaches n d (guess + 1) then guess + 1 else if reaches n d guess then guess else guess - 1

/-- Which of two decimals is taken that are as near as each other. -/
inductive Tie
  /-- The one with an even last digit. -/
  | even
  /-- The one farther from zero. -/
  | up
  deriving DecidableEq, Repr

/-- Whether the decimal above `floor` is taken, and not `floor`. -/
def Tie.takesUpper : Tie → Nat → Bool
  | even, floor => floor % 2 = 1
  | up, _ => true

/-- The point of the grid `10 ^ k` in the interval that is nearest to its value. -/
def Interval.onGrid (i : Interval) (tie : Tie) (k : Int) : Option Nat :=
  let up := if k < 0 then Nat.pow 10 k.natAbs else 1
  let spacing := i.denominator * if k < 0 then 1 else Nat.pow 10 k.natAbs
  let floor := i.value * up / spacing
  let excess := i.value * up % spacing
  let inside := fun c => if i.closed then i.low * up ≤ c * spacing ∧ c * spacing ≤ i.high * up
    else i.low * up < c * spacing ∧ c * spacing < i.high * up
  let upper := floor + 1
  -- Of two points inside, the nearer is taken.
  if inside floor then
    if inside upper ∧ (spacing < 2 * excess ∨ spacing = 2 * excess ∧ tie.takesUpper floor) then
      some upper
    else some floor
  else if inside upper then some upper
  else none

/-- The decimal `c * 10 ^ k` without zeros at its end. -/
def Scientific.of (c : Nat) (k : Int) : Scientific :=
  let digits := Numeral.write c
  { digits := (digits.reverse.dropWhile (· = '0')).reverse
    exponent := digits.length - 1 + k }

/-- The shortest decimal that rounds to `m * 2 ^ q`, for positive `m`. -/
def shortest (tie : Tie) (m : Nat) (q : Int) : Scientific :=
  let i := Interval.of m q
  let e := leadingExponent i.value i.denominator
  let found := (List.range' 1 17).findSome? fun (count : Nat) =>
    (i.onGrid tie (e + 1 - count)).map fun c => Scientific.of c (e + 1 - count)
  found.getD ⟨[], 0⟩

example : shortest .even 1 (-1074) = ⟨['5'], -324⟩ := by decide +kernel
example : shortest .even fractions (-52) = ⟨['1'], 0⟩ := by decide +kernel
example : shortest .even 7205759403792794 (-56) = ⟨['1'], -1⟩ := by decide +kernel
example : shortest .even (2 * fractions - 1) 971 = ⟨"17976931348623157".toList, 308⟩ := by
  decide +kernel

end LineStore.Decimal
