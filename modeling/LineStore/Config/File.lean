import LineStore.Config.Setting
import LineStore.Files.Calls
import LineStore.Json.Reader
import LineStore.Text.Cut
import LineStore.Toml.Reader

/-!
# Settings from a file

A configuration file is TOML or JSON, and its extension says which. A file that is named in full is
taken if it is there; otherwise the name may lack its extension, and the formats are tried in turn.
A file is known to messages by the way to it from the current directory.
-/

namespace LineStore.Config

/-- The formats of configuration files. -/
inductive Format
  | toml
  | json
  deriving DecidableEq, Repr

namespace Format

def all : List Format := [toml, json]

/-- The extension of the format, after the point. -/
def extension : Format → Bytes
  | toml => Utf8.encode "toml"
  | json => Utf8.encode "json"

end Format

/-- What is wrong with a configuration file. -/
inductive FileFault
  /-- There is no such file, it cannot be read, or it is of no known format. -/
  | unreadable
  /-- The text is not of the format. -/
  | malformed
  deriving DecidableEq, Repr

/-! ## Finding the file -/

/-- The byte before an extension. -/
def point : UInt8 := 0x2E

/-- What stands after the last point of a file name that has something before it. -/
def extension? (name : Name) : Option Bytes :=
  let after := (name.reverse.takeWhile (· ≠ point)).reverse
  if after.length + 1 < name.length then some after else none

/-- The last step of a path, if it is a name. -/
def lastName? (p : Path) : Option (List Segment × Name) :=
  match p.segments.reverse.dropWhile Segment.stays with
  | .name n :: above => some (above.reverse, n)
  | _ => none

/-- Whether a path leads to a regular file. -/
def isFile (tree : Tree) (p : Path) : Bool :=
  match tree.fileExists p with
  | .ok true => true
  | _ => false

/-- The file that a path names, and its format. -/
def find? (tree : Tree) (p : Path) : Option (Path × Format) :=
  match lastName? p with
  | none => none
  | some (above, name) =>
    if isFile tree p then
      (Format.all.find? fun f => extension? name = some f.extension).map (p, ·)
    else
      let candidates := Format.all.map fun f =>
        (Path.mk p.absolute (above ++ [.name (name ++ point :: f.extension)]) false, f)
      candidates.find? fun (p, _) => isFile tree p

/-- The steps from a directory to what the steps from the root lead to. -/
def stepsFrom : List Name → List Segment → List Segment
  | n :: dir, .name m :: steps =>
    if n = m then stepsFrom dir steps
    else (List.replicate (dir.length + 1) .up) ++ .name m :: steps
  | dir, steps => List.replicate dir.length .up ++ steps

/-- The way to a file from the current directory, as text. -/
def origin (tree : Tree) (p : Path) : String :=
  let steps := p.segments.filter fun s => !s.stays
  let steps := if p.absolute then stepsFrom tree.cwd.reverse steps else steps
  Utf8.decodeLossy ((steps.map Segment.toBytes).intersperse [Segment.separator]).flatten

/-! ## Reading the file -/

/-- Settings as the items of a list. -/
def numbered (items : List Setting) : List (Nat × Setting) :=
  items.zipIdx.map fun (setting, i) => (i, setting)

mutual

/-- What a TOML value says. -/
def ofToml (origin : String) : Toml.Value → Setting
  | .string s => .scalar (some origin) (.text s)
  | .integer n => .scalar (some origin) (.integer n)
  | .float bits => .scalar (some origin) (.float bits)
  | .boolean b => .scalar (some origin) (.boolean b)
  | .moment text => .scalar (some origin) (.text text)
  | .array items => .list (some origin) items.length (numbered (ofTomlItems origin items))
  | .table members => .table (ofTomlMembers origin members)

def ofTomlItems (origin : String) : List Toml.Value → List Setting
  | [] => []
  | item :: rest => ofToml origin item :: ofTomlItems origin rest

def ofTomlMembers (origin : String) : List (String × Toml.Value) → List (String × Setting)
  | [] => []
  | (name, value) :: rest => (name, ofToml origin value) :: ofTomlMembers origin rest

end

/-- What a JSON number says. One past the whole numbers counts as a double. -/
def ofJsonNumber : Json.Number → Scalar
  | .natural n => if n < integerBound then .integer n else .float (UInt64.ofNat n).toFloat.toBits
  | .negative n => .integer (-n)
  | .double bits => .float bits

mutual

/-- What a JSON value says. -/
def ofJson (origin : String) : Json.Value → Setting
  | .null => .scalar (some origin) .nothing
  | .bool b => .scalar (some origin) (.boolean b)
  | .number n => .scalar (some origin) (ofJsonNumber n)
  | .string s => .scalar (some origin) (.text s)
  | .array items => .list (some origin) items.length (numbered (ofJsonItems origin items))
  | .object members => .table (ofJsonMembers origin members)

def ofJsonItems (origin : String) : List Json.Value → List Setting
  | [] => []
  | item :: rest => ofJson origin item :: ofJsonItems origin rest

def ofJsonMembers (origin : String) : List (String × Json.Value) → List (String × Setting)
  | [] => []
  | (name, value) :: rest => (name, ofJson origin value) :: ofJsonMembers origin rest

end

/-- What a text says. One that is no table or object says nothing. -/
def parse (format : Format) (origin : String) (text : String) :
    Except FileFault (List (String × Setting)) :=
  match format with
  | .toml =>
    match Toml.read? text.toList with
    | some (.table members) => .ok (ofTomlMembers origin members)
    | some _ => .ok []
    | none => .error .malformed
  | .json =>
    match Json.read text.toList with
    | .ok (.object members) => .ok (ofJsonMembers origin members)
    | .ok _ => .ok []
    | .error _ => .error .malformed

/-- What the file says that a path names. -/
def fromFile (tree : Tree) (p : Path) : Except FileFault (List (String × Setting)) :=
  match find? tree p with
  | none => .error .unreadable
  | some (p, format) =>
    match tree.readText? p with
    | .ok (some text) => parse format (origin tree p) text
    | _ => .error .unreadable

end LineStore.Config
