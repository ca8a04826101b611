import LineStore.Config.Basic
import LineStore.Config.Environment
import LineStore.Config.File
import LineStore.Config.Layer

/-!
# Loading a configuration

A configuration comes in three layers: what is built in, what the file says, and what the
environment says, the later on top. A file that is asked for must be there; the usual one is used if
it is. Every field is looked up by its name in the layers taken together, and then the whole is
validated.
-/

namespace LineStore.Config

/-- Why there is no configuration. -/
inductive LoadError
  | file (fault : FileFault)
  /-- A path leads to an item that no list has. -/
  | noItem
  /-- A field cannot take what was said. -/
  | type (field : String) (fault : TypeFault)
  | unusable (fault : ConfigFault)
  deriving DecidableEq, Repr

namespace LoadError

/-- The wording for a person. -/
def message : LoadError → String
  | file .unreadable => "the file is missing, unreadable or of no known format"
  | file .malformed => "the file is not well-formed"
  | noItem => "a path leads to an item that no list has"
  | type field fault => fault.message field
  | unusable fault => fault.message

end LoadError

/-- The layer of a configuration. -/
def toLayer (c : Config) : Layer :=
  let number := fun (n : Nat) => Setting.scalar none (.integer n)
  let text := fun (s : String) => Setting.scalar none (.text s)
  [("bind_address", text c.bindAddress), ("port", number c.port),
    ("documents_root", text c.documentsRoot), ("settings_root", text c.settingsRoot),
    ("dictionaries_root", text c.dictionariesRoot), ("max_clients", number c.maxClients),
    ("max_command_length", number c.maxCommandLength),
    ("max_body_bytes", number c.maxBodyBytes), ("event_buffer", number c.eventBuffer)]

/-- What a layer says of a field, as `convert` takes it. -/
def field {α : Type} (convert : Setting → Except TypeFault α) (layer : Layer) (name : String) :
    Except LoadError α :=
  match convert ((layer.lookup name).getD (.scalar none .nothing)) with
  | .ok a => .ok a
  | .error fault => .error (.type name fault)

/-- The bound of ports. A number beyond it is taken modulo this. -/
def portBound : Nat := UInt16.size

/-- The configuration that a layer makes. -/
def ofLayer (layer : Layer) : Except LoadError Config := do
  let bindAddress ← field Setting.toText layer "bind_address"
  let port ← field Setting.toNumber layer "port"
  let documentsRoot ← field Setting.toText layer "documents_root"
  let settingsRoot ← field Setting.toText layer "settings_root"
  let dictionariesRoot ← field Setting.toText layer "dictionaries_root"
  let maxClients ← field Setting.toNumber layer "max_clients"
  let maxCommandLength ← field Setting.toNumber layer "max_command_length"
  let maxBodyBytes ← field Setting.toNumber layer "max_body_bytes"
  let eventBuffer ← field Setting.toNumber layer "event_buffer"
  return { bindAddress, port := port % portBound, documentsRoot, settingsRoot, dictionariesRoot,
           maxClients, maxCommandLength, maxBodyBytes, eventBuffer }

/-- The usual configuration file. -/
def usualFile : Path := .ofString "config"

/-- What the file says: the one asked for, or the usual one if it can be found and read. -/
def fileSettings (tree : Tree) : Option Path → Except FileFault (List (String × Setting))
  | some p => fromFile tree p
  | none =>
    match fromFile tree usualFile with
    -- Nobody asked for this file, so it may be missing.
    | .error .unreadable => .ok []
    | result => result

/-- The configuration of a file and an environment. -/
def load (tree : Tree) (file : Option Path) (environment : List (String × String)) :
    Except LoadError Config := do
  let said ← (fileSettings tree file).mapError .file
  let sources := said ++ fromEnvironment environment
  let layer ← (Layer.ofSource? [] sources).elim (.error .noItem) .ok
  let config ← ofLayer (layer.atop (toLayer {}))
  (config.validate).mapError .unusable
  return config

end LineStore.Config
