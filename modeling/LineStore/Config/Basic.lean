import LineStore.Text.Numeral

/-!
# Configuration

Nine settings say where the store listens, where it keeps things and how much it takes. `validate`
is the last word on them: limits are positive, roots are named, and the first fault in the order of
the fields is the one reported, the two limits on requests counting as one.
-/

namespace LineStore

/-- The configuration of a store. -/
structure Config where
  bindAddress : String := "127.0.0.1"
  port : Nat := 2323
  documentsRoot : String := "./data/documents"
  settingsRoot : String := "./data/settings"
  dictionariesRoot : String := "./data/dictionaries"
  /-- The number of connections served at a time. -/
  maxClients : Nat := 32
  /-- The longest request line in bytes, its end included. -/
  maxCommandLength : Nat := 1024
  /-- The longest body in bytes. -/
  maxBodyBytes : Nat := 1024 * 1024
  /-- The number of events kept for each observer. -/
  eventBuffer : Nat := 64
  deriving DecidableEq, Repr

/-- What makes a configuration unusable. -/
inductive ConfigFault
  | portZero
  | emptyRoot (field : String)
  | noClients
  | noRequests
  | noEvents
  deriving DecidableEq, Repr

namespace ConfigFault

def message : ConfigFault → String
  | portZero => "port cannot be 0"
  | emptyRoot field => field ++ " cannot be empty"
  | noClients => "max_clients must be greater than 0"
  | noRequests => "max_command_length and max_body_bytes must be greater than 0"
  | noEvents => "event_buffer must be greater than 0"

end ConfigFault

namespace Config

/-- The first fault of a configuration, if it has one. -/
def fault? (c : Config) : Option ConfigFault :=
  if c.port = 0 then some .portZero
  else if c.documentsRoot = "" then some (.emptyRoot "documents_root")
  else if c.settingsRoot = "" then some (.emptyRoot "settings_root")
  else if c.dictionariesRoot = "" then some (.emptyRoot "dictionaries_root")
  else if c.maxClients = 0 then some .noClients
  else if c.maxCommandLength = 0 ∨ c.maxBodyBytes = 0 then some .noRequests
  else if c.eventBuffer = 0 then some .noEvents
  else none

/-- Passes a usable configuration. -/
def validate (c : Config) : Except ConfigFault Unit :=
  match c.fault? with
  | some fault => .error fault
  | none => .ok ()

/-- The address to listen on, with the port. -/
def socketAddress (c : Config) : String :=
  c.bindAddress ++ ":" ++ String.ofList (Numeral.write c.port)

end Config
end LineStore
