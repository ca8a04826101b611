import LineStore.Text.Numeral

/-!
# Addresses of connections

A connection comes from a machine, known by its version 4 or version 6 address, and from a port of
it. An address can be spelled in several ways and is written in one: without leading zeros, in small
letters, and a version 6 address with its longest run of zero groups left out. The last four bytes
of a version 6 address may be read with points between them; they are written so only where the
address stands for a version 4 one.
-/

namespace LineStore

/-- Where a connection comes from. -/
inductive Address
  | v4 (octets : Vector UInt8 4) (port : UInt16)
  /-- A version 6 address; `scope` says which network it is meant in, if it is not zero. -/
  | v6 (groups : Vector UInt16 8) (scope : UInt32) (port : UInt16)
  deriving DecidableEq, Repr

namespace Address

/-! ## Reading -/

/-- What follows the character `c`. -/
def passMark? (c : Char) : List Char → Option (List Char)
  | [] => none
  | d :: rest => if d = c then some rest else none

/-- The number at the front, below a bound, and what follows all of its digits. -/
def number? (base bound : Nat) (s : List Char) : Option (Nat × List Char) :=
  let digits := s.takeWhile (Numeral.isDigitIn base)
  let n := Numeral.ofDigitsIn base digits
  if digits ≠ [] ∧ n < bound then some (n, s.drop digits.length) else none

/-- One byte of a version 4 address: up to three digits, without leading zeros. -/
def octet? (s : List Char) : Option (UInt8 × List Char) :=
  let digits := s.takeWhile Char.isDigit
  if 3 < digits.length ∨ (1 < digits.length ∧ digits.head? = some '0') then none
  else (number? 10 UInt8.size s).map fun (n, rest) => (UInt8.ofNat n, rest)

/-- A version 4 address, and what follows. -/
def octets? (s : List Char) : Option (Vector UInt8 4 × List Char) := do
  let (a, s) ← octet? s
  let (b, s) ← octet? (← passMark? '.' s)
  let (c, s) ← octet? (← passMark? '.' s)
  let (d, s) ← octet? (← passMark? '.' s)
  return (#v[a, b, c, d], s)

/-- One group of a version 6 address: up to four hexadecimal digits. -/
def group? (s : List Char) : Option (UInt16 × List Char) :=
  if 4 < (s.takeWhile (Numeral.isDigitIn 16)).length then none
  else (number? 16 UInt16.size s).map fun (n, rest) => (UInt16.ofNat n, rest)

/-- The group that two bytes make. -/
def pair (high low : UInt8) : UInt16 := UInt16.ofNat (high.toNat * UInt8.size + low.toNat)

/-- Groups with colons between them, as many as there are but at most a number: the groups, whether
the last two were written as four bytes, and what follows. `first` says that no colon comes before
the first of them. -/
def spanGroups : Nat → Bool → List Char → List UInt16 × Bool × List Char
  | 0, _, s => ([], false, s)
  | limit + 1, first, s =>
    match if first then some s else passMark? ':' s with
    | none => ([], false, s)
    | some body =>
      match if limit = 0 then none else octets? body with
      | some (octets, rest) => ([pair octets[0] octets[1], pair octets[2] octets[3]], true, rest)
      | none =>
        match group? body with
        | some (group, rest) =>
          let (groups, bytes, rest) := spanGroups limit false rest
          (group :: groups, bytes, rest)
        | none => ([], false, s)

/-- Eight groups. -/
def ofGroups? (groups : List UInt16) : Option (Vector UInt16 8) :=
  if h : groups.length = 8 then some ⟨groups.toArray, by simp [h]⟩ else none

/-- A version 6 address, and what follows. Two colons stand for one group of zeros at the least. -/
def groups? (s : List Char) : Option (Vector UInt16 8 × List Char) :=
  let (front, bytes, s) := spanGroups 8 true s
  match ofGroups? front with
  | some groups => some (groups, s)
  | none =>
    if bytes then none
    else do
      let s ← passMark? ':' (← passMark? ':' s)
      let (back, _, s) := spanGroups (7 - front.length) true s
      let zeros := List.replicate (8 - front.length - back.length) 0
      return (← ofGroups? (front ++ zeros ++ back), s)

/-- The network that a version 6 address is meant in, and what follows. -/
def scope? (s : List Char) : Option (UInt32 × List Char) :=
  match s with
  | '%' :: rest => (number? 10 UInt32.size rest).map fun (n, rest) => (UInt32.ofNat n, rest)
  | _ => some (0, s)

/-- The port, at the end. -/
def port? (s : List Char) : Option UInt16 := do
  let (n, rest) ← number? 10 UInt16.size (← passMark? ':' s)
  if rest = [] then some (UInt16.ofNat n) else none

/-- The address that a text spells. -/
def read? (text : List Char) : Option Address :=
  match text with
  | '[' :: s => do
    let (groups, s) ← groups? s
    let (scope, s) ← scope? s
    return .v6 groups scope (← port? (← passMark? ']' s))
  | s => do
    let (octets, s) ← octets? s
    return .v4 octets (← port? s)

/-! ## Writing -/

/-- Bytes with points between them. -/
def writeOctets (octets : List UInt8) : List Char :=
  ['.'].intercalate (octets.map fun b => Numeral.write b.toNat)

/-- Groups with colons between them. -/
def writeGroups (groups : List UInt16) : List Char :=
  [':'].intercalate (groups.map fun g => Nat.toDigits 16 g.toNat)

/-- Where the longest run of zeros begins, the first of the longest ones, and how long it is. -/
def zeroRun (groups : List UInt16) : Nat × Nat :=
  (List.range groups.length).foldl (fun best start =>
    let length := ((groups.drop start).takeWhile (· = 0)).length
    if best.2 < length then (start, length) else best) (0, 0)

/-- The bytes of a group. -/
def bytesOf (group : UInt16) : List UInt8 :=
  [UInt8.ofNat (group.toNat / UInt8.size), UInt8.ofNat (group.toNat % UInt8.size)]

/-- A version 6 address, as it is written. -/
def renderGroups (groups : List UInt16) : List Char :=
  match groups with
  | [0, 0, 0, 0, 0, 0xffff, high, low] =>
    "::ffff:".toList ++ writeOctets (bytesOf high ++ bytesOf low)
  | _ =>
    let (start, length) := zeroRun groups
    -- A single zero is written.
    if 1 < length then
      writeGroups (groups.take start) ++ ':' :: ':' :: writeGroups (groups.drop (start + length))
    else writeGroups groups

/-- The address as text. -/
def render : Address → String
  | v4 octets port =>
    String.ofList (writeOctets octets.toList ++ ':' :: Numeral.write port.toNat)
  | v6 groups scope port =>
    let network := if scope = 0 then [] else '%' :: Numeral.write scope.toNat
    String.ofList
      ('[' :: renderGroups groups.toList ++ network ++ ']' :: ':' :: Numeral.write port.toNat)

example : (read? "127.0.0.1:080".toList).map render = some "127.0.0.1:80" := by
  decide +kernel
example : (read? "[1:0:0:2:0:0:0:3]:1".toList).map render = some "[1:0:0:2::3]:1" := by
  decide +kernel
example : (read? "[::FFFF:1.2.3.4%07]:9".toList).map render = some "[::ffff:1.2.3.4%7]:9" := by
  decide +kernel
example : read? "[1::2::3]:1".toList = none := by decide +kernel

end Address
end LineStore
