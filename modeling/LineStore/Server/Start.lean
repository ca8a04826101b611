import LineStore.Config.Load
import LineStore.Server.Connection

/-!
# Starting a server

A server starts with a configuration, its roots and a socket, in this order, and each may fail. The
first two are dealt with here.
-/

namespace LineStore

/-- Why a server does not start. -/
inductive StartError
  | config (reason : String)
  /-- The machine refused a directory or a socket, with what it said. -/
  | machine (reason : String)
  deriving DecidableEq, Repr

namespace StartError

def message : StartError → String
  | config reason => "Configuration error: " ++ reason
  | machine reason => "I/O error: " ++ reason

/-- The error that a failed file operation is at the start. -/
def ofFile (e : FileError) : StartError := .machine e.message

/-- The error that a configuration is which cannot be had. -/
def ofLoad (e : Config.LoadError) : StartError := .config e.message

end StartError

namespace Server

/-- A server of a configuration, whose roots are made where they are missing. -/
def launch (config : Config) (host : Host) : Except StartError Server :=
  match (Stores.ofConfig config).makeRoots host with
  | (.ok (), host) => .ok (.start config host)
  | (.error e, _) => .error (.ofFile e)

end Server
end LineStore
