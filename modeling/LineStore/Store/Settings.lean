import LineStore.Events.Sink
import LineStore.Files.Host
import LineStore.Store.Error
import LineStore.Store.Listing
import LineStore.Store.Identifier

/-!
# Settings

A setting is a JSON text with a key and a level. It is kept byte for byte in one file directly under
the root, called `<level>.<key>.json`. A save checks everything first, then writes, and when the
setting is safely on file tells the sink, once. What becomes of the announcement does not concern
the one who saved.
-/

namespace LineStore

/-- The settings under a root. -/
structure Settings where
  root : Path
  deriving DecidableEq, Repr

namespace Settings

/-- The level of a request that names none. -/
def defaultLevel : String := "user"

/-- The name of the file that a setting is kept in. -/
def fileName (key level : String) : Name := Utf8.encode (level ++ "." ++ key ++ ".json")

/-- The file that a setting is kept in. The key is checked before the level. -/
def path (store : Settings) (key level : String) : Except StoreError Path :=
  if !Identifier.isKey key then .error (.invalidKey key)
  else if !Identifier.isKey level then .error (.invalidKey level)
  else .ok (store.root.child (fileName key level))

/-- Whether a text may be kept as a setting. -/
def checkContent (content : String) : Except StoreError Unit :=
  match Json.check content.toList with
  | .ok () => .ok ()
  | .error fault => .error (.invalidJson (fault.message content))

/-- Keeps a text as a setting, on file. -/
def keep (store : Settings) (key level content client : String) (host : Host) :
    Except StoreError Unit × Host :=
  match store.path key level with
  | .error e => (.error e, host)
  | .ok path =>
    if client = "" then (.error .missingClient, host)
    else
      match checkContent content with
      | .error e => (.error e, host)
      | .ok () =>
        match host.writeAtomic path (Utf8.encode content) .replace with
        | (.ok (), host) => (.ok (), host)
        | (.error e, host) => (.error (.ofFile e), host)

/-- What is announced of a setting saved at a moment. -/
def announcement (key level client : String) (now : Instant) : Announcement :=
  ⟨client, key, level, epochMillis now⟩

/-- Keeps a text as a setting, and announces it once it is on file. -/
def save {σ : Type} (store : Settings) (sink : Sink σ) (key level content client : String)
    (host : Host) (state : σ) : Except StoreError Unit × Host × σ :=
  match store.keep key level content client host with
  | (.ok (), host) =>
    (.ok (), host, sink.announce (announcement key level client host.now) host.tree state)
  | (.error e, host) => (.error e, host, state)

/-- The text of a setting. -/
def load (store : Settings) (key level : String) (tree : Tree) : Except StoreError String :=
  match store.path key level with
  | .error e => .error e
  | .ok path =>
    match tree.readText? path with
    | .ok (some content) => .ok content
    | .ok none => .error (.notFound (level ++ "." ++ key))
    | .error e => .error (.ofFile e)

end Settings
end LineStore
