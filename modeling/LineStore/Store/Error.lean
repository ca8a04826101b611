import LineStore.Files.Error

/-!
# Why a store refuses

The causes for which a document, a setting or a dictionary is not stored or handed out. Each is of a
kind, which decides the code of the reply; it has a signal, by which programs know it; and a
message. The messages quote what the client sent as it was sent.
-/

namespace LineStore

/-- The kinds of refusal. -/
inductive ErrorKind
  | invalidInput
  | accessDenied
  | notFound
  | conflict
  | malformedPayload
  | storageFailure
  deriving DecidableEq, Repr

/-- Why a store refuses. -/
inductive StoreError
  | invalidName (name : String)
  | invalidKey (key : String)
  | missingClient
  | missingParameter (name : String)
  /-- A source that is not a file. -/
  | unsupportedType (type : String)
  /-- A setting that is not JSON, with what is wrong with it. -/
  | invalidJson (fault : String)
  /-- A source that leads out of the root. -/
  | accessDenied (source : String)
  | notFound (name : String)
  | alreadyExists (name : String)
  /-- The files failed, with what they said. -/
  | storage (reason : String)
  deriving DecidableEq, Repr

namespace ErrorKind

/-- The code of a reply about an error of this kind. -/
def status : ErrorKind → Nat
  | invalidInput => 400
  | malformedPayload => 400
  | accessDenied => 403
  | notFound => 404
  | conflict => 409
  | storageFailure => 500

end ErrorKind

namespace StoreError

def kind : StoreError → ErrorKind
  | invalidName _ => .invalidInput
  | invalidKey _ => .invalidInput
  | missingClient => .invalidInput
  | missingParameter _ => .invalidInput
  | unsupportedType _ => .invalidInput
  | invalidJson _ => .malformedPayload
  | accessDenied _ => .accessDenied
  | notFound _ => .notFound
  | alreadyExists _ => .conflict
  | storage _ => .storageFailure

/-- The stable name by which programs know the error. -/
def signal : StoreError → String
  | invalidName _ => "INVALID_NAME"
  | invalidKey _ => "INVALID_KEY"
  | missingClient => "MISSING_CLIENT_ID"
  | missingParameter _ => "MISSING_PARAMETER"
  | unsupportedType _ => "UNSUPPORTED_TYPE"
  | invalidJson _ => "INVALID_JSON"
  | accessDenied _ => "FORBIDDEN"
  | notFound _ => "NOT_FOUND"
  | alreadyExists _ => "ALREADY_EXISTS"
  | storage _ => "STORAGE_FAILURE"

/-- The wording shown to clients. -/
def message : StoreError → String
  | invalidName name =>
    "Invalid filename '" ++ name ++ "': must be 1-64 characters without path separators"
  | invalidKey key => "Invalid key format: " ++ key
  | missingClient => "Client ID is required"
  | missingParameter name => "Parameter '" ++ name ++ "' is required"
  | unsupportedType type => "Only file sources are supported (got '" ++ type ++ "')"
  | invalidJson fault => "Invalid JSON data: " ++ fault
  | accessDenied source => "Access denied: '" ++ source ++ "' is outside the allowed directory"
  | notFound name => "Not found: " ++ name
  | alreadyExists name => "File already exists: " ++ name ++ ". Use overwrite to replace it"
  | storage reason => "Storage error: " ++ reason

/-- The code of a reply about the error. -/
def status (e : StoreError) : Nat := e.kind.status

/-- The error that a failed file operation is for a store. -/
def ofFile (e : FileError) : StoreError := .storage e.message

/-! ## The journal -/

/-- How grave an entry of the journal is. -/
inductive Level
  | warning
  | error
  deriving DecidableEq, Repr

/-- What the journal says about an operation that failed. A store that cannot do its work is an
error; a client that asks for the wrong thing is not. -/
def journal (operation : String) (e : StoreError) : Level × String :=
  match e.kind with
  | .storageFailure => (.error, operation ++ " failed: " ++ e.message)
  | _ => (.warning, operation ++ " rejected (" ++ e.signal ++ "): " ++ e.message)

/-- Whether another error lies beneath. -/
def hasSource : StoreError → Bool
  | storage _ => true
  | _ => false

end StoreError
end LineStore
