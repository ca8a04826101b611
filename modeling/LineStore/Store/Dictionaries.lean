import LineStore.Files.Calls
import LineStore.Store.Error

/-!
# Dictionaries

Dictionaries are files that clients may read and name as they please, by any path, as long as it
ends up at or below the root. So a source is resolved first and read after.

Resolving goes through a source step by step and asks the file tree at each. What exists is replaced
by where it really is, so that `..` is the true parent and a link counts for what it leads to. What
does not exist stays as it is written: a source may name a file that is missing, and is then told
so, but only if the file would be inside.
-/

namespace LineStore

/-- The dictionaries under a root. -/
structure Dictionaries where
  root : Path
  deriving DecidableEq, Repr

namespace Dictionaries

/-- The only type of source. -/
def fileType : String := "file"

/-- Goes on from a location, which need not exist, through the steps of a path. -/
def resolveFrom (tree : Tree) : Location → List Segment → Except FileError Location
  | loc, [] => .ok loc
  | loc, .blank :: rest => resolveFrom tree loc rest
  | loc, .here :: rest => resolveFrom tree loc rest
  | loc, .up :: rest => resolveFrom tree loc.tail rest
  | loc, .name n :: rest =>
    match tree.canonical (.ofLocation (n :: loc)) with
    | .ok real => resolveFrom tree real rest
    | .error .absent => resolveFrom tree (n :: loc) rest
    | .error e => .error e

/-- Where an absolute path leads, as far as it leads anywhere. -/
def resolveLenient (tree : Tree) (p : Path) : Except FileError Location :=
  resolveFrom tree [] p.segments

/-- Where a source leads, if that is the root or below it. A relative source starts at the root. -/
def resolve? (tree : Tree) (root : Path) (source : String) : Option Location :=
  match tree.canonical root with
  | .error _ => none
  | .ok home =>
    match resolveLenient tree ((Path.ofLocation home).join (.ofString source)) with
    | .error _ => none
    | .ok loc => if home.isSuffixOf loc then some loc else none

/-- The text that a source names. -/
def fetch (store : Dictionaries) (type source : String) (tree : Tree) :
    Except StoreError String :=
  if type ≠ fileType then .error (.unsupportedType type)
  else if source = "" then .error (.missingParameter "source")
  else
    match resolve? tree store.root source with
    | none => .error (.accessDenied source)
    | some loc =>
      match tree.readText? (.ofLocation loc) with
      | .ok (some text) => .ok text
      | .ok none => .error (.notFound source)
      | .error e => .error (.ofFile e)

end Dictionaries
end LineStore
