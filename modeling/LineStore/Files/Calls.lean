import LineStore.Files.Walk

/-!
# File operations

The operations on the file tree that the stores use. Reading answers from the tree; changing gives a
new tree, or a cause and no tree. `makeDirectories` alone can fail half-way, so it hands back the
tree in both cases.

Operations that add or remove a name act on the last step of a path as it stands: a link there is
itself replaced, removed or in the way, and what it points to is left alone. Only `create`, like
reading, goes through a link.
-/

namespace LineStore.Tree

/-! ## Reading -/

/-- Whether a path leads to a regular file; a path that leads nowhere does not. -/
def fileExists (tree : Tree) (p : Path) : Except FileError Bool :=
  match tree.follow p with
  | .ok (_, .file _) => .ok true
  | .ok _ => .ok false
  | .error .absent => .ok false
  | .error e => .error e

/-- Whether a path leads to a directory. -/
def isDirectory (tree : Tree) (p : Path) : Bool :=
  match tree.follow p with
  | .ok (_, .directory) => true
  | _ => false

/-- The bytes of the file that a path leads to. -/
def readBytes (tree : Tree) (p : Path) : Except FileError Bytes :=
  match tree.follow p with
  | .ok (_, .file f) => .ok f.bytes
  | .ok (_, .directory) => .error .isDirectory
  -- A walk that follows links to the end never ends at one.
  | .ok (_, .link _) => .error .tooManyLinks
  | .error e => .error e

/-- The text of the file that a path leads to; nothing if the path leads nowhere. -/
def readText? (tree : Tree) (p : Path) : Except FileError (Option String) :=
  match tree.readBytes p with
  | .ok bytes =>
    match Utf8.decode? bytes with
    | some text => .ok (some text)
    | none => .error .notText
  | .error .absent => .ok none
  | .error e => .error e

/-- The location of a directory and the names in it. -/
def readDirectory (tree : Tree) (p : Path) : Except FileError (Location × List Name) :=
  match tree.follow p with
  | .ok (loc, .directory) => .ok (loc, (tree.children loc).map (·.1))
  | .ok _ => .error .notDirectory
  | .error e => .error e

/-! ## Names -/

/-- The directory and the name that a new entry at `p` would have. -/
def freeName (tree : Tree) (p : Path) : Except FileError (Location × Name) :=
  match tree.doorstep p with
  | .ok (dir, .name n) =>
    if nameLimit < n.length then .error .nameTooLong
    else if (tree.get? (n :: dir)).isSome then .error .occupied
    else .ok (dir, n)
  | .ok _ => .error .occupied
  | .error e => .error e

/-- A new directory. -/
def makeDirectory (tree : Tree) (p : Path) : Except FileError Tree :=
  (tree.freeName p).map fun (dir, n) => tree.attach dir n .directory

/-- A new link that holds `target`. -/
def makeLink (tree : Tree) (target : Bytes) (p : Path) : Except FileError Tree :=
  if target.contains 0 || p.hasZero then .error .zeroInPath
  else if target = [] then .error .absent
  else if Path.limit < target.length then .error .nameTooLong
  else
    match tree.freeName p with
    -- A separator asks for a directory, and there is none.
    | .ok (dir, n) => if p.slash then .error .absent else .ok (tree.attach dir n (.link target))
    | .error e => .error e

/-- A second name, at `new`, for what stands at `old`. -/
def link (tree : Tree) (old new : Path) : Except FileError Tree :=
  if old.hasZero || new.hasZero then .error .zeroInPath
  else if Path.limit < old.length ∨ Path.limit < new.length then .error .nameTooLong
  else
    match tree.locate .itself old with
    | .error e => .error e
    | .ok (.vacant _ _) => .error .absent
    | .ok (.found _ node) =>
      match tree.freeName new with
      | .error e => .error e
      | .ok (dir, n) =>
        if new.slash then .error .absent
        else if node = .directory then .error .notPermitted
        else .ok (tree.attach dir n node)

/-- Removes a name that is not a directory's. -/
def unlink (tree : Tree) (p : Path) : Except FileError Tree :=
  match tree.doorstep p with
  | .error e => .error e
  | .ok (dir, .name n) =>
    if nameLimit < n.length then .error .nameTooLong
    else
      match tree.get? (n :: dir) with
      | none => .error .absent
      | some .directory => .error .isDirectory
      | some _ => if p.slash then .error .notDirectory else .ok (tree.detach (n :: dir))
  | .ok _ => .error .isDirectory

/-- Whether two nodes are the same file. -/
def sameFile : Node → Node → Bool
  | .file f, .file g => f.id == g.id
  | _, _ => false

/-- Moves what stands at `old`, which is no directory, to `new`, in place of what stands there.
Moving a file over another of its own names leaves both names. -/
def rename (tree : Tree) (old new : Path) : Except FileError Tree :=
  if old.hasZero || new.hasZero then .error .zeroInPath
  else if Path.limit < old.length ∨ Path.limit < new.length then .error .nameTooLong
  else
    match tree.doorstep old, tree.doorstep new with
    | .error e, _ => .error e
    | _, .error e => .error e
    | .ok (fromDir, .name m), .ok (toDir, .name n) =>
      if nameLimit < m.length then .error .nameTooLong
      else
        match tree.get? (m :: fromDir) with
        | none => .error .absent
        | some node =>
          if nameLimit < n.length then .error .nameTooLong
          else if node = .directory then .error .isDirectory
          else if old.slash || new.slash then .error .notDirectory
          else
            match tree.get? (n :: toDir) with
            | none => .ok ((tree.detach (m :: fromDir)).attach toDir n node)
            | some .directory => .error .isDirectory
            | some other =>
              -- Two names of one file: there is nothing to move.
              if sameFile node other ∨ m :: fromDir = n :: toDir then .ok tree
              else .ok (((tree.detach (m :: fromDir)).detach (n :: toDir)).attach toDir n node)
    | _, _ => .error .busy

/-! ## Files -/

/-- Opens a file for writing, empty: a new one, or the one that is there. A path that asks for a
directory is refused, whether there is one or not. -/
def create (tree : Tree) (p : Path) (now : Instant) : Except FileError (Nat × Tree) :=
  match tree.locate .asFile p with
  | .error e => .error e
  | .ok (.vacant dir n) =>
    .ok (tree.freshId, tree.attach dir n (.file ⟨tree.freshId, [], now⟩))
  -- The file that is there loses its bytes, under all of its names.
  | .ok (.found _ (.file f)) => .ok (f.id, tree.setFile f.id [] now)
  | .ok (.found _ _) => .error .isDirectory

/-- The bytes of the file with the number `id`. -/
def bytesOf (tree : Tree) (id : Nat) : Bytes :=
  (tree.entries.findSome? fun e =>
    match e.node with
    | .file f => if f.id = id then some f.bytes else none
    | _ => none).getD []

/-- Writes at the end of an open file. -/
def append (tree : Tree) (id : Nat) (bytes : Bytes) (now : Instant) : Tree :=
  tree.setFile id (tree.bytesOf id ++ bytes) now

/-! ## Directories -/

/-- Creates the first of the directories, after those that follow it in the list as needed. -/
def makeFirst : List Path → Tree → Except FileError Unit × Tree
  | [], tree => (.ok (), tree)
  | p :: above, tree =>
    match tree.makeDirectory p with
    | .ok tree => (.ok (), tree)
    | .error .absent =>
      match makeFirst above tree with
      | (.error e, tree) => (.error e, tree)
      | (.ok (), tree) =>
        match tree.makeDirectory p with
        | .ok tree => (.ok (), tree)
        -- Making what is above may have made this one too, as in a path that turns back.
        | .error e => (if tree.isDirectory p then .ok () else .error e, tree)
    | .error e => (if tree.isDirectory p then .ok () else .error e, tree)

/-- Creates a directory with all that are missing above it. One that exists is fine. -/
def makeDirectories (tree : Tree) (p : Path) : Except FileError Unit × Tree :=
  if p.isEmpty then (.ok (), tree) else makeFirst p.ancestors tree

end LineStore.Tree
