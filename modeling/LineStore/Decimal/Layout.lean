import LineStore.Decimal.Shortest

/-!
# Layouts of decimal numbers

The digits of a number are one thing and where they are put is another. A `Layout` is the second: up
to which exponents the number is written out with its point in place, and what the number looks like
otherwise. Two layouts are in use, one for JSON and one for settings read as text.
-/

namespace LineStore.Decimal

/-- How the digits of a number are set out. -/
structure Layout where
  /-- The exponents for which the number is written out in full. -/
  positional : Int → Bool
  /-- Whether a whole number that is written out keeps a point and a zero. -/
  pointZero : Bool
  /-- Which digits are taken where two choices are as near. -/
  tie : Tie

namespace Layout

/-- Numbers in JSON: written out from `0.00001` up to sixteen digits before the point, and halfway
cases with an even last digit. -/
def json : Layout := ⟨fun e => -5 ≤ e ∧ e ≤ 15, true, .even⟩

/-- Numbers as plain text: always written out, whole numbers without a point, and halfway cases away
from zero. -/
def plain : Layout := ⟨fun _ => true, false, .up⟩

/-- The number written out, its point in place. -/
def expand (layout : Layout) (s : Scientific) : List Char :=
  if s.exponent < 0 then
    '0' :: '.' :: List.replicate (s.exponent.natAbs - 1) '0' ++ s.digits
  else
    let whole := s.exponent.toNat + 1
    if s.digits.length ≤ whole then
      s.digits ++ List.replicate (whole - s.digits.length) '0' ++
        if layout.pointZero then ['.', '0'] else []
    else s.digits.take whole ++ '.' :: s.digits.drop whole

/-- The number with its exponent, which always has a sign. -/
def withExponent (s : Scientific) : List Char :=
  let mantissa := match s.digits with
    | [d] => [d]
    | d :: rest => d :: '.' :: rest
    | [] => []
  let sign := if s.exponent < 0 then '-' else '+'
  mantissa ++ 'e' :: sign :: Numeral.write s.exponent.natAbs

/-- A positive number, set out. -/
def write (layout : Layout) (s : Scientific) : List Char :=
  if layout.positional s.exponent then layout.expand s else withExponent s

/-- Zero, set out. -/
def zero (layout : Layout) : List Char := if layout.pointZero then ['0', '.', '0'] else ['0']

/-- A double, set out. -/
def writeBits (layout : Layout) (bits : UInt64) : List Char :=
  let signed := fun negative body => if negative then '-' :: body else body
  match Binary.ofBits bits with
  | .nan => ['N', 'a', 'N']
  | .infinite negative => signed negative ['i', 'n', 'f']
  | .finite negative m q =>
    signed negative (if m = 0 then layout.zero else layout.write (shortest layout.tie m q))

end Layout
end LineStore.Decimal
