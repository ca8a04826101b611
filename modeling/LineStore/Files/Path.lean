import LineStore.Text.Utf8

/-!
# Paths

A `Location` says where an entry *is*; a `Path` is a way to get there, and may wander: through `.`,
through `..`, through links. Locations are written from the entry up to the root, innermost name
first, so that a child is one `cons` away from its directory, the parent of a location is its tail,
and "at or below `d`" is "has `d` as a suffix".

A path keeps all of its steps, even the ones between two separators that say nothing, so that it can
be written again as it was and has a length. Which steps lead anywhere is for the file tree to say.
-/

namespace LineStore

/-- The name of one directory entry. -/
abbrev Name := Bytes

/-- The names from an entry up to the root, innermost first. -/
abbrev Location := List Name

/-- One step of a path. -/
inductive Segment
  /-- Nothing between two separators: stay. -/
  | blank
  /-- A dot: stay. -/
  | here
  /-- Two dots: go to the parent. -/
  | up
  | name (name : Name)
  deriving DecidableEq, Repr

/-- A way through the file tree. -/
structure Path where
  /-- Whether the way starts at the root, and not in the current directory. -/
  absolute : Bool
  segments : List Segment
  /-- Whether a separator ends the path, which asks for a directory. -/
  slash : Bool
  deriving DecidableEq, Repr

namespace Segment

/-- The byte between the steps of a path. -/
def separator : UInt8 := 0x2F

/-- The step that a piece between separators stands for. -/
def ofBytes (piece : Bytes) : Segment :=
  if piece = [] then .blank
  else if piece = [0x2E] then .here
  else if piece = [0x2E, 0x2E] then .up
  else .name piece

/-- The piece that stands for a step. -/
def toBytes : Segment → Bytes
  | blank => []
  | here => [0x2E]
  | up => [0x2E, 0x2E]
  | name n => n

/-- Whether the step goes nowhere. -/
def stays : Segment → Bool
  | blank | here => true
  | _ => false

@[simp] theorem toBytes_ofBytes (piece : Bytes) : (ofBytes piece).toBytes = piece := by
  unfold ofBytes
  split
  · simp_all [toBytes]
  · split
    · simp_all [toBytes]
    · split <;> simp_all [toBytes]

end Segment

namespace Path

/-- The path that `b` spells. -/
def ofBytes (b : Bytes) : Path :=
  let absolute := b.head? == some Segment.separator
  let body := if absolute then b.tail else b
  let slash := body.getLast? == some Segment.separator
  let inner := if slash then body.dropLast else body
  { absolute, slash
    segments := if body = [] then []
      else (inner.splitOnP (· == Segment.separator)).map Segment.ofBytes }

def ofString (s : String) : Path := ofBytes (Utf8.encode s)

/-- The straight way from the root to a location. -/
def ofLocation (loc : Location) : Path := ⟨true, loc.reverse.map .name, false⟩

/-- The bytes that spell the path. -/
def toBytes (p : Path) : Bytes :=
  (if p.absolute then [Segment.separator] else []) ++
    ((p.segments.map Segment.toBytes).intersperse [Segment.separator]).flatten ++
    if p.slash then [Segment.separator] else []

/-- The length of the path as text, in bytes. -/
def length (p : Path) : Nat := p.toBytes.length

/-- The steps, with a blank one more when a separator ends the path. -/
def steps (p : Path) : List Segment := p.segments ++ if p.slash then [.blank] else []

/-- Whether the path says nothing at all. -/
def isEmpty (p : Path) : Bool := !p.absolute && p.segments.isEmpty

/-- Whether a zero byte stands in the path. -/
def hasZero (p : Path) : Bool := p.segments.any fun
  | .name n => n.contains 0
  | _ => false

/-- `q` as seen from `p`. -/
def join (p q : Path) : Path :=
  if q.absolute then q
  else
    { absolute := p.absolute
      segments := p.segments ++ q.segments
      slash := if q.segments.isEmpty then !p.segments.isEmpty else q.slash }

/-- The entry called `n` in the directory `p`. -/
def child (p : Path) (n : Name) : Path := ⟨p.absolute, p.segments ++ [.name n], false⟩

/-- The path without the steps at its end that go nowhere. A dot that a path from the current
directory begins with is kept. -/
def trim (p : Path) : Path :=
  let trimmed := fun steps : List Segment => (steps.reverse.dropWhile Segment.stays).reverse
  match p.absolute, p.segments with
  | false, .here :: rest => ⟨false, .here :: trimmed rest, false⟩
  | absolute, segments => ⟨absolute, trimmed segments, false⟩

/-- The directory that holds what `p` leads to. A path that ends in no name is taken for a directory
and is its own parent. -/
def parent (p : Path) : Path :=
  match p.segments.reverse.dropWhile Segment.stays with
  | .name _ :: above => trim ⟨p.absolute, above.reverse, false⟩
  | _ => p

/-- The entry called `n` beside the one that `p` leads to. -/
def sibling (p : Path) (n : Name) : Path := p.parent.child n

/-- The paths with steps left off at the end, longest first; the argument is innermost first. -/
def above (absolute : Bool) : List Segment → List Path
  | [] => []
  | last :: rest => ⟨absolute, (last :: rest).reverse, false⟩ :: above absolute rest

/-- The path itself and then the directories on the way to it, innermost first. -/
def ancestors (p : Path) : List Path :=
  p :: above p.absolute (p.segments.filter fun s => !s.stays).reverse.tail

theorem sibling_child (p : Path) (m n : Name) : (p.child m).sibling n = p.trim.child n := by
  simp [sibling, parent, child, trim, Segment.stays]

@[simp] theorem steps_child (p : Path) (n : Name) :
    (p.child n).steps = p.segments ++ [.name n] := by
  simp [steps, child]

@[simp] theorem steps_ofLocation (loc : Location) :
    (ofLocation loc).steps = loc.reverse.map .name := by
  simp [steps, ofLocation]

end Path

/-- A location as text, as a path from the root. -/
def Location.display (loc : Location) : Bytes :=
  if loc = [] then [Segment.separator]
  else loc.reverse.flatMap fun name => Segment.separator :: name

end LineStore
