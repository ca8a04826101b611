import LineStore.Files.Host
import LineStore.Store.Error
import LineStore.Store.Listing
import LineStore.Store.Identifier

/-!
# Documents

A document is a text with a name. It is kept in one file directly under the root, called by its name
with `.txt` at the end, so the names `a` and `a.txt` are two names of one document. Names are
checked before any file is touched.

A put that may not overwrite looks first, which gives the usual answer, and then publishes in a way
that cannot overwrite, which gives the answer when somebody else was faster.
-/

namespace LineStore

/-- The documents under a root. -/
structure Documents where
  root : Path
  deriving DecidableEq, Repr

namespace Documents

/-- What ends the file name of every document. -/
def extension : String := ".txt"

/-- The name of the file that a document is kept in. -/
def fileName (name : String) : Name := Utf8.encode (Identifier.withExtension name extension)

/-- The file that a document is kept in. -/
def path (store : Documents) (name : String) : Except StoreError Path :=
  if Identifier.isDocumentName name then .ok (store.root.child (fileName name))
  else .error (.invalidName name)

/-- Keeps a text under a name and returns it. -/
def put (store : Documents) (name content : String) (overwrite : Bool) (host : Host) :
    Except StoreError String × Host :=
  match store.path name with
  | .error e => (.error e, host)
  | .ok path =>
    match if overwrite then .ok false else host.tree.fileExists path with
    | .error e => (.error (.ofFile e), host)
    | .ok true => (.error (.alreadyExists name), host)
    | .ok false =>
      let mode := if overwrite then .replace else .createNew
      match host.writeAtomic path (Utf8.encode content) mode with
      | (.ok (), host) => (.ok content, host)
      -- Nothing was there a moment ago: somebody else was faster, or a link leads nowhere.
      | (.error .occupied, host) => (.error (.alreadyExists name), host)
      | (.error e, host) => (.error (.ofFile e), host)

/-- The text of a document. -/
def get (store : Documents) (name : String) (tree : Tree) : Except StoreError String :=
  match store.path name with
  | .error e => .error e
  | .ok path =>
    match tree.readText? path with
    | .ok (some content) => .ok content
    | .ok none => .error (.notFound name)
    | .error e => .error (.ofFile e)

/-- Removes a document. A removal that is denied would be tried again, but there are no permissions
here, so none is. -/
def delete (store : Documents) (name : String) (host : Host) : Except StoreError Unit × Host :=
  match store.path name with
  | .error e => (.error e, host)
  | .ok path =>
    match host.tree.unlink path with
    | .ok tree => (.ok (), host.settle tree)
    | .error .absent => (.error (.notFound name), host)
    | .error e => (.error (.ofFile e), host)

/-- The name that a listing shows for a file, if it shows the file at all. -/
def listedName? (file : Name) : Option String := do
  let name ← Utf8.decode? file
  if name.toList.head? = some '.' then none
  else (Text.stem? extension.toList name.toList).map String.ofList

/-- The document that a directory entry is, with the time it was written; nothing for an entry that
is no document, or that has just gone. -/
def listed? (store : Documents) (tree : Tree) (file : Name) :
    Except FileError (Option (Instant × String)) :=
  match listedName? file with
  | none => .ok none
  | some name =>
    match tree.follow (store.root.child file) with
    | .ok (_, .file f) => .ok (some (f.modified, name))
    -- A directory may be called like a document.
    | .ok _ => .ok none
    | .error .absent => .ok none
    | .error e => .error e

/-- All documents, the newest first. -/
def list (store : Documents) (tree : Tree) : Except StoreError (List ListEntry) :=
  match tree.readDirectory store.root with
  | .error e => .error (.ofFile e)
  | .ok (_, names) =>
    match names.filterMapM (store.listed? tree) with
    | .error e => .error (.ofFile e)
    | .ok found => .ok (Listing.ofFound found)

end Documents
end LineStore
