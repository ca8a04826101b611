import LineStore.Server.Start
import Std.Time.DateTime.Timestamp

/-!
# The program

One client is served over standard input and output, from stores that live as long as the program
does. The configuration comes from the environment and from a file: the one that is asked for, or
the usual one. A configuration that cannot be used is reported on standard error, and the exit code
is one.
-/

namespace LineStore.Main

/-! ## Configuration -/

/-- The variables that settings are taken from. -/
def variableNames : List String :=
  (Config.toLayer {}).map fun (field, _) =>
    String.ofList (Text.capitals (Config.variableStart ++ field.toList))

/-- The variables that are set. -/
def environment : IO (List (String × String)) := do
  let found ← variableNames.mapM fun name => do
    return (← IO.getEnv name).map (name, ·)
  return found.filterMap id

/-- The names under which a configuration file is looked for. -/
def candidates (file : String) : List String := [file, file ++ ".toml", file ++ ".json"]

/-- The tree with one more file, and with the directories above it. -/
def plant (tree : Tree) (p : Path) (bytes : Bytes) : Tree :=
  let tree := match p.ancestors with
    | _ :: dir :: _ => (tree.makeDirectories dir).2
    | _ => tree
  match tree.create p 0 with
  | .ok (file, tree) => tree.append file bytes 0
  | .error _ => tree

/-- The tree with a file of the machine's, if that can be read. -/
def take (tree : Tree) (name : String) : IO Tree := do
  try
    let content ← IO.FS.readBinFile name
    return plant tree (.ofString name) content.toList
  catch _ => return tree

/-- The configuration that a server is to have. -/
def configuration (file : Option String) : IO (Except StartError Config) := do
  let tree ← (candidates (file.getD "config")).foldlM take Tree.empty
  return (Config.load tree (file.map .ofString) (← environment)).mapError .ofLoad

/-! ## Serving -/

/-- The address of the one client, which is on this machine. -/
def client : Address := .v4 #v[127, 0, 0, 1] 0

/-- The time of day. -/
def clock : IO Instant := do
  return (← Std.Time.Timestamp.now).toNanosecondsSinceUnixEpoch.val

/-- The most bytes that are taken in at once. -/
def portion : USize := 65536

/-- The bytes of what was sent to the client after the first `written` outputs. -/
def unwritten (s : Server) (written : Nat) : Bytes :=
  ((s.sentTo client).drop written).flatMap Output.toWire

/-- Serves the client until its connection ends; `written` outputs have reached it. -/
partial def serve (input output : IO.FS.Stream) (s : Server) (written : Nat) : IO Unit := do
  let s := s.setClock (← clock)
  output.write (unwritten s written).toByteArray
  output.flush
  let written := (s.sentTo client).length
  match s.due? client with
  | some action => serve input output (s.act action) written
  | none =>
    if (s.find? client).isSome then
      let bytes ← input.read portion
      let action := if bytes.isEmpty then .finish client else .receive client bytes.toList
      serve input output (s.act action) written

/-- The machine that the stores see: nothing is on it. -/
def emptyHost (now : Instant) : Host := { tree := Tree.empty, now, process := 1, writes := 0 }

/-- Runs the program with the name of a configuration file, if there is one. -/
def run (file : Option String) : IO UInt32 := do
  let now ← clock
  match (← configuration file).bind fun config => Server.launch config (emptyHost now) with
  | .error e =>
    (← IO.getStderr).putStrLn e.message
    return 1
  | .ok s =>
    serve (← IO.getStdin) (← IO.getStdout) (s.act (.arrive client)) 0
    return 0

end LineStore.Main

def main (args : List String) : IO UInt32 := LineStore.Main.run args.head?
