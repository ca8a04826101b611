import LineStore.Files.Error
import LineStore.Files.Tree

/-!
# Following paths

A path is walked one step at a time from a directory. `..` is the parent of the directory reached,
not of the name before it, so it undoes a link's destination and not the link. A link sends the walk
to the steps it holds followed by the steps still to do; the walk gives up on the forty-first link.

A path that is too long is not walked at all. Only making a path canonical takes paths of any
length, because it goes step by step. It asks about each place that it comes to by the place's own
path from the root, and that one must not be too long either (`outgrows`).

The walk ends in a `Place`: an entry, or a name that is still free in a directory that exists. The
last distinction is what creating a file needs, and all that it needs.
-/

namespace LineStore

/-- Where a walk ends. -/
inductive Place
  | found (loc : Location) (node : Node)
  /-- Nothing stands here, but the directory exists. -/
  | vacant (dir : Location) (name : Name)
  deriving DecidableEq, Repr

namespace Place

/-- What stands at the place. -/
def entry : Place → Except FileError (Location × Node)
  | found loc node => .ok (loc, node)
  | vacant _ _ => .error .absent

end Place

/-- How a walk takes the last step of a path. -/
inductive Ending
  /-- A link is where the walk ends. -/
  | itself
  /-- A link is followed. -/
  | followed
  /-- A link is followed, and what it leads to has to be a file, there already or yet to come. A
  separator after the last name asks for a directory, so it is refused; in a link no less. -/
  | asFile
  deriving DecidableEq, Repr

/-- The longest path that is walked, in bytes. -/
def Path.limit : Nat := 4095

/-- What keeps a path from being walked, whatever the tree holds. -/
def Path.fault? (p : Path) : Option FileError :=
  if p.hasZero then some .zeroInPath
  else if limit < p.length then some .nameTooLong
  else if p.isEmpty then some .absent
  else none

namespace Tree

/-- The longest name of an entry, in bytes. -/
def nameLimit : Nat := 255

/-- The number of links that one walk may pass. -/
def linkLimit : Nat := 40

/-- Walks to the next link. `jump dir target rest` says how to go on at a link in `dir`. -/
def advance (tree : Tree) (ending : Ending)
    (jump : Location → Path → List Segment → Except FileError Place) :
    Location → List Segment → Except FileError Place
  | dir, [] => .ok (.found dir .directory)
  | dir, .blank :: rest => advance tree ending jump dir rest
  | dir, .here :: rest => advance tree ending jump dir rest
  -- The root is its own parent.
  | dir, .up :: rest => advance tree ending jump dir.tail rest
  | dir, .name n :: rest =>
    if ending = .asFile ∧ rest ≠ [] ∧ rest.all (· = .blank) then .error .isDirectory
    else if nameLimit < n.length then .error .nameTooLong
    else
      match tree.get? (n :: dir) with
      -- Only the last step may lead nowhere.
      | none => if rest = [] then .ok (.vacant dir n) else .error .absent
      | some .directory => advance tree ending jump (n :: dir) rest
      | some (.file f) =>
        if rest = [] then .ok (.found (n :: dir) (.file f)) else .error .notDirectory
      | some (.link target) =>
        if rest = [] ∧ ending = .itself then .ok (.found (n :: dir) (.link target))
        else jump dir (.ofBytes target) rest

/-- Walks from a directory, through at most the given number of links. -/
def walk (tree : Tree) (ending : Ending) :
    Nat → Location → List Segment → Except FileError Place
  | 0 => advance tree ending fun _ _ _ => .error .tooManyLinks
  | links + 1 => advance tree ending fun dir target rest =>
    if target.isEmpty then .error .absent
    else walk tree ending links (if target.absolute then [] else dir) (target.steps ++ rest)

/-- The directory in which a path starts. -/
def start (tree : Tree) (p : Path) : Location := if p.absolute then [] else tree.cwd

/-- Where a path leads. -/
def locate (tree : Tree) (ending : Ending) (p : Path) : Except FileError Place :=
  match p.fault? with
  | some e => .error e
  | none => tree.walk ending linkLimit (tree.start p) p.steps

/-- What a path leads to, links followed to the end. -/
def follow (tree : Tree) (p : Path) : Except FileError (Location × Node) :=
  (tree.locate .followed p).bind Place.entry

/-- Whether a walk to the next link comes to a place whose own path is too long, before it fails in
another way. `jump dir target rest` says the same of the walk from a link in `dir`. -/
def overruns (tree : Tree) (jump : Location → Path → List Segment → Bool) :
    Location → List Segment → Bool
  | _, [] => false
  | dir, .blank :: rest => overruns tree jump dir rest
  | dir, .here :: rest => overruns tree jump dir rest
  | dir, .up :: rest => overruns tree jump dir.tail rest
  | dir, .name n :: rest =>
    if nameLimit < n.length then false
    else if Path.limit < (Location.display (n :: dir)).length then true
    else
      match tree.get? (n :: dir) with
      | some .directory => overruns tree jump (n :: dir) rest
      | some (.link target) => jump dir (.ofBytes target) rest
      | some (.file _) | none => false

/-- Whether a walk through at most the given number of links comes to such a place. -/
def outgrows (tree : Tree) : Nat → Location → List Segment → Bool
  | 0 => overruns tree fun _ _ _ => false
  | links + 1 => overruns tree fun dir target rest =>
    if target.isEmpty then false
    else outgrows tree links (if target.absolute then [] else dir) (target.steps ++ rest)

/-- The location that a path of any length leads to, links followed to the end. -/
def canonical (tree : Tree) (p : Path) : Except FileError Location :=
  if p.hasZero then .error .zeroInPath
  else if p.isEmpty then .error .absent
  else if tree.outgrows linkLimit (tree.start p) p.steps then .error .nameTooLong
  else ((tree.walk .followed linkLimit (tree.start p) p.steps).bind Place.entry).map (·.1)

/-- The directory that holds the last step of a path, and that step. The step itself is not taken;
the root has none, so it counts as its own parent. -/
def doorstep (tree : Tree) (p : Path) : Except FileError (Location × Segment) :=
  match p.fault? with
  | some e => .error e
  | none =>
    match p.segments.reverse.dropWhile (· = .blank) with
    | [] => .ok ([], .up)
    | last :: above =>
      -- The dot at the end asks for a directory.
      match tree.walk .followed linkLimit (tree.start p) (above.reverse ++ [.here]) with
      | .ok (.found dir _) => .ok (dir, last)
      | .ok (.vacant _ _) => .error .absent
      | .error e => .error e

end Tree
end LineStore
