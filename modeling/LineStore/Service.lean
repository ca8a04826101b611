import LineStore.Config.Basic
import LineStore.Events.Ring
import LineStore.Protocol.Command
import LineStore.Protocol.Reply
import LineStore.Store.Documents

/-!
# The service

The three stores side by side, and what they do with a command. A store that refuses makes a reply
with the code of the refusal and its message; nothing else goes wrong in a way that a client could
see.
-/

namespace LineStore

/-- The stores at their roots. -/
structure Stores where
  documents : Documents
  settings : Settings
  dictionaries : Dictionaries
  deriving DecidableEq, Repr

/-- What commands change: the machine, and the events on their way. -/
structure World where
  host : Host
  events : Ring

namespace Stores

/-- The stores of a configuration. -/
def ofConfig (c : Config) : Stores :=
  ⟨⟨.ofString c.documentsRoot⟩, ⟨.ofString c.settingsRoot⟩, ⟨.ofString c.dictionariesRoot⟩⟩

/-- Creates what is missing of the roots, one after the other. -/
def makeRoots (stores : Stores) (host : Host) : Except FileError Unit × Host :=
  match host.makeDirectories stores.documents.root with
  | (.error e, host) => (.error e, host)
  | (.ok (), host) =>
    match host.makeDirectories stores.settings.root with
    | (.error e, host) => (.error e, host)
    | (.ok (), host) => host.makeDirectories stores.dictionaries.root

/-- The reply to a request that a store refuses. -/
def refuse (e : StoreError) : Reply := .ofFailure e.status e.message

/-- The reply with what a store hands out. -/
def handOut : Except StoreError String → Reply
  | .ok text => .ofPayload Code.ok text
  | .error e => refuse e

/-- The reply to a save. -/
def replyToSave : Except StoreError Unit → Reply
  | .ok () => .ofMessage Code.ok "Settings saved successfully"
  | .error e => refuse e

/-- The reply to a removal. -/
def replyToDelete : Except StoreError Unit → Reply
  | .ok () => .ofMessage Code.noContent "Deleted"
  | .error e => refuse e

/-- Carries out a command, whose body is `body` if it has one. -/
def handle (stores : Stores) (command : Command) (body : Option String) (world : World) :
    Reply × World :=
  match command with
  | .getSettings key level => (handOut (stores.settings.load key level world.host.tree), world)
  | .putSettings key level client _ =>
    let (result, host, events) :=
      stores.settings.save Ring.sink key level (body.getD "") client world.host world.events
    (replyToSave result, ⟨host, events⟩)
  | .data type source =>
    (handOut (stores.dictionaries.fetch type source world.host.tree), world)
  | .list _ =>
    (handOut ((stores.documents.list world.host.tree).map ListEntry.renderAll), world)
  | .get name => (handOut (stores.documents.get name world.host.tree), world)
  | .put name overwrite _ =>
    let (result, host) := stores.documents.put name (body.getD "") overwrite world.host
    (handOut result, { world with host })
  | .delete name =>
    let (result, host) := stores.documents.delete name world.host
    (replyToDelete result, { world with host })
  | .subscribe =>
    ((Reply.ofMessage Code.ok ("Subscribed to " ++ settingsTopic)).withStatus .subscribe, world)
  | .ready => (.ofMessage Code.noContent "Ready", world)
  | .quit => ((Reply.ofMessage Code.goodbye "Goodbye").withStatus .close, world)
  | .malformed usage => (.ofFailure Code.badRequest usage.text, world)
  | .unknown => (.ofFailure Code.unknownCommand "Unknown command", world)

end Stores
end LineStore
