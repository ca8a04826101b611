import LineStore.Server.Intake
import LineStore.Server.Registry
import LineStore.Service

/-!
# Connections

A server is what it keeps, the register, and the connections that are open. Everything that happens
to it is an `Action`: somebody arrives, bytes come in, a client stops sending or is lost, a handler
takes its next step, a forwarder takes its next step. Actions of different connections, and of the
handler and the forwarder of one, may come in any order, and that order is all there is to
concurrency here.

A handler carries out a request and replies to it in one step, but for the first request for events.
That one takes three: the handler takes the writer and joins the ring; it writes the reply and gives
the writer back; it starts the forwarder and tells the register. In between anything else may
happen. From then on the forwarder takes two steps for each event, one to receive it and one to
write it.

What a connection is sent is kept in order, whole replies and whole events: each is written under
the writer's lock. A connection that ends leaves the register and the ring in the same action.
-/

namespace LineStore

/-- Something sent to a client. -/
inductive Output
  | reply (reply : Reply)
  | event (event : Event)

namespace Output

/-- The bytes of what is sent. -/
def toWire : Output → Bytes
  | reply r => r.toWire
  | event e => Utf8.encode (Wire.event e)

/-- The reply that an output is, if it is one. -/
def reply? : Output → Option Reply
  | reply r => some r
  | event _ => none

/-- The event that an output is, if it is one. -/
def event? : Output → Option Event
  | reply _ => none
  | event e => some e

end Output

/-- How far a connection is with getting events. The numbers are its place at the ring. -/
inductive Subscription
  /-- It has not asked for events. -/
  | absent
  /-- It has joined the ring. The handler has the writer, and this reply to write. -/
  | joined (observer : Nat) (reply : Reply)
  /-- The reply is written, and the forwarder is to be started. -/
  | confirmed (observer : Nat)
  /-- The forwarder runs. It may have an event in hand, which is to be written next. -/
  | forwarding (observer : Nat) (hand : Option Event)

namespace Subscription

/-- The place at the ring. -/
def observer? : Subscription → Option Nat
  | absent => none
  | joined id _ => some id
  | confirmed id => some id
  | forwarding id _ => some id

/-- Whether the handler is busy with it, and does not read on. -/
def isBusy : Subscription → Bool
  | joined _ _ => true
  | confirmed _ => true
  | _ => false

/-- The reply that is to be written yet. -/
def reply? : Subscription → Option Reply
  | joined _ reply => some reply
  | _ => none

/-- The event that the forwarder has received and is to write. -/
def hand? : Subscription → Option Event
  | forwarding _ hand => hand
  | _ => none

/-- Whether the forwarder was started. -/
def isForwarding : Subscription → Bool
  | forwarding _ _ => true
  | _ => false

/-- Who has asked for events has a forwarder, unless the handler is busy with it yet. -/
theorem isForwarding_eq (subscription : Subscription) :
    subscription.isForwarding = (subscription.observer?.isSome && !subscription.isBusy) := by
  cases subscription <;> rfl

end Subscription

/-- A connection. -/
structure Connection where
  address : Address
  /-- The bytes that have come in and are not used yet. -/
  input : Bytes
  /-- Whether the client has stopped sending. -/
  ended : Bool
  subscription : Subscription
  /-- What it was sent, last first. -/
  sent : List Output
  /-- Whether it is being served. -/
  isOpen : Bool

namespace Connection

/-- A connection that has just been made, and was sent one reply. -/
def begin (address : Address) (reply : Reply) (isOpen : Bool) : Connection :=
  ⟨address, [], false, .absent, [.reply reply], isOpen⟩

/-- Its place at the ring, once it has asked for events. -/
def observer (c : Connection) : Option Nat := c.subscription.observer?

theorem observer_eq {c : Connection} {subscription : Subscription}
    (h : c.subscription = subscription) : c.observer = subscription.observer? :=
  congrArg Subscription.observer? h

theorem isForwarding_of_observer {c : Connection} {id : Nat} (ho : c.observer = some id)
    (hb : c.subscription.isBusy = false) : c.subscription.isForwarding = true := by
  have hid : c.subscription.observer? = some id := ho
  rw [c.subscription.isForwarding_eq, hid, hb]
  rfl

end Connection

/-- The server at work. -/
structure Server where
  config : Config
  world : World
  registry : Registry
  connections : List Connection

/-- Something that happens to a server. -/
inductive Action
  | arrive (address : Address)
  | receive (address : Address) (bytes : Bytes)
  /-- The client sends nothing more. -/
  | finish (address : Address)
  /-- The connection breaks: nothing gets through any more. -/
  | lose (address : Address)
  /-- The handler of a connection takes its next step. -/
  | serve (address : Address)
  /-- The forwarder of a connection takes its next step. -/
  | forward (address : Address)

namespace Server

def greeting : Reply := .ofMessage Code.welcome "rax-docstore ready"

def tooMany : Reply := .ofMessage Code.tooManyConnections "Too many connections. Try again later."

def limits (s : Server) : Limits := ⟨s.config.maxCommandLength, s.config.maxBodyBytes⟩

def stores (s : Server) : Stores := .ofConfig s.config

/-- A server on a machine whose roots exist. -/
def start (config : Config) (host : Host) : Server :=
  ⟨config, ⟨host, .ofCapacity config.eventBuffer⟩, .empty config.maxClients, []⟩

/-- The connection from an address that is being served. -/
def find? (s : Server) (address : Address) : Option Connection :=
  s.connections.find? fun c => c.address = address && c.isOpen

/-- The server with the connection from one address changed. -/
def update (s : Server) (address : Address) (f : Connection → Connection) : Server :=
  { s with connections := s.connections.map fun c =>
      if c.address = address ∧ c.isOpen then f c else c }

/-- The server after a connection was sent something. -/
def send (s : Server) (address : Address) (output : Output) : Server :=
  s.update address fun c => { c with sent := output :: c.sent }

/-- The server after a connection was closed. -/
def close (s : Server) (c : Connection) : Server :=
  let events := match c.observer with
    | some id => s.world.events.unsubscribe id
    | none => s.world.events
  { s.update c.address fun c => { c with isOpen := false } with
    registry := s.registry.erase c.address
    world := { s.world with events } }

/-- Somebody arrives, and is greeted or turned away. -/
def arrive (s : Server) (address : Address) : Server :=
  match s.registry.insert? address with
  | none =>
    { s with connections := .begin address tooMany false :: s.connections }
  | some registry =>
    { s with registry, connections := .begin address greeting true :: s.connections }

/-- A connection joins the ring, with the reply still to write. -/
def join (s : Server) (c : Connection) (reply : Reply) : Server :=
  let (id, events) := s.world.events.subscribe
  { s.update c.address fun c => { c with subscription := .joined id reply } with
    world := { s.world with events } }

/-- The handler writes the reply to the request for events. -/
def confirm (s : Server) (c : Connection) (id : Nat) (reply : Reply) : Server :=
  s.update c.address fun c =>
    { c with sent := .reply reply :: c.sent, subscription := .confirmed id }

/-- The handler starts the forwarder, and tells the register. -/
def startForwarder (s : Server) (c : Connection) (id : Nat) : Server :=
  { s.update c.address fun c => { c with subscription := .forwarding id none } with
    registry := s.registry.setSubscribed c.address true }

/-- Carries out a request and replies, or joins the ring before it replies. -/
def answer (s : Server) (c : Connection) (command : Command) (body : Option String) : Server :=
  let (reply, world) := s.stores.handle command body s.world
  let s := { s with world, registry := s.registry.record c.address }
  match reply.status with
  | .subscribe =>
    -- There is one forwarder for a connection. Whoever asks again is told so again, no more.
    if c.subscription.isForwarding then s.send c.address (.reply reply) else s.join c reply
  | .close => (s.send c.address (.reply reply)).close c
  | _ => s.send c.address (.reply reply)

/-- Deals with what the bytes of a connection begin with. -/
def readNext (s : Server) (c : Connection) : Server :=
  match Intake.next s.limits c.ended c.input with
  | .wait => s
  | .stop => s.close c
  | .hangUp reply => (s.send c.address (.reply reply)).close c
  | .refuse reply rest =>
    (s.update c.address fun c => { c with input := rest }).send c.address (.reply reply)
  | .request command body rest =>
    (s.update c.address fun c => { c with input := rest }).answer c command body

/-- The next step of a connection's handler. It reads on once it is done with the request for
events. -/
def serve (s : Server) (c : Connection) : Server :=
  match c.subscription with
  | .joined id reply => s.confirm c id reply
  | .confirmed id => s.startForwarder c id
  | .absent => s.readNext c
  | .forwarding _ _ => s.readNext c

/-- The forwarder takes an event in hand. -/
def hold (s : Server) (c : Connection) (id : Nat) (event : Event) : Server :=
  s.update c.address fun c => { c with subscription := .forwarding id (some event) }

/-- The forwarder writes the event that it has in hand. -/
def deliver (s : Server) (c : Connection) (id : Nat) (event : Event) : Server :=
  s.update c.address fun c =>
    { c with sent := .event event :: c.sent, subscription := .forwarding id none }

/-- The next step of a connection's forwarder, if that runs: it writes the event that it has in
hand, or receives one. Events that were lost are passed over. -/
def forward (s : Server) (c : Connection) : Server :=
  match c.subscription with
  | .forwarding id (some event) => s.deliver c id event
  | .forwarding id none =>
    let (receipt, events) := s.world.events.receive id
    let s := { s with world := { s.world with events } }
    match receipt with
    -- Of what was lost the client is told nothing.
    | .event event => s.hold c id event
    | _ => s
  | _ => s

/-- Whether the forwarder of a connection has something to do. -/
def isForwardable (s : Server) (c : Connection) : Bool :=
  match c.subscription with
  | .forwarding _ (some _) => true
  | .forwarding id none =>
    match (s.world.events.receive id).1 with
    | .event _ => true
    | .lagged _ => true
    | _ => false
  | _ => false

/-- The server after something has happened. -/
def act (s : Server) : Action → Server
  | .arrive address => s.arrive address
  | .receive address bytes => s.update address fun c => { c with input := c.input ++ bytes }
  | .finish address => s.update address fun c => { c with ended := true }
  | .lose address =>
    match s.find? address with
    | some c => s.close c
    | none => s
  | .serve address =>
    match s.find? address with
    | some c => s.serve c
    | none => s
  | .forward address =>
    match s.find? address with
    | some c => s.forward c
    | none => s

/-- What can be done for a connection without waiting: a step of the forwarder if it has something
to do, or else one of the handler. -/
def due? (s : Server) (address : Address) : Option Action := do
  let c ← s.find? address
  if s.isForwardable c then return .forward address
  if c.subscription.isBusy then return .serve address
  match Intake.next s.limits c.ended c.input with
  | .wait => none
  | _ => return .serve address

/-- The server at another time. -/
def setClock (s : Server) (now : Instant) : Server :=
  { s with world := { s.world with host := { s.world.host with now } } }

/-- What was sent to the latest connection from an address, in order. -/
def sentTo (s : Server) (address : Address) : List Output :=
  ((s.connections.find? (·.address = address)).elim [] (·.sent)).reverse

/-- The reply that the latest connection from an address is to be sent yet. -/
def awaited? (s : Server) (address : Address) : Option Reply :=
  (s.connections.find? (·.address = address)).bind (·.subscription.reply?)

/-- The server after a number of things have happened. -/
def run (s : Server) (actions : List Action) : Server := actions.foldl act s

end Server
end LineStore
