import LineStore.Server.Address

/-!
# The register of connections

Who is connected, how many commands each connection has had carried out, and whether it asked for
events. The register is full at its limit and takes nobody then, not even an address it has. Below
the limit an address that arrives again starts afresh.
-/

namespace LineStore

/-- A registered connection. -/
structure Client where
  address : Address
  /-- How many commands were carried out for it, in one word. -/
  served : UInt64
  /-- Whether it asked for events. -/
  subscribed : Bool
  deriving DecidableEq, Repr

/-- The connections that are being served, with their limit. -/
structure Registry where
  clients : List Client
  limit : Nat
  deriving DecidableEq, Repr

namespace Registry

def empty (limit : Nat) : Registry := ⟨[], limit⟩

/-- The number of connections. -/
def size (r : Registry) : Nat := r.clients.length

/-- The number of connections that asked for events. -/
def subscribers (r : Registry) : Nat := r.clients.countP (·.subscribed)

/-- The connection from an address. -/
def get? (r : Registry) (address : Address) : Option Client :=
  r.clients.find? (·.address = address)

/-- The register without an address. -/
def erase (r : Registry) (address : Address) : Registry :=
  { r with clients := r.clients.filter (·.address ≠ address) }

/-- The register with a new connection; nothing if it is full. -/
def insert? (r : Registry) (address : Address) : Option Registry :=
  if r.limit ≤ r.size then none
  else some { r with clients := (r.erase address).clients ++ [⟨address, 0, false⟩] }

/-- The register with the connection from one address changed. -/
def update (r : Registry) (address : Address) (f : Client → Client) : Registry :=
  { r with clients := r.clients.map fun c => if c.address = address then f c else c }

/-- One more command was carried out. -/
def record (r : Registry) (address : Address) : Registry :=
  r.update address fun c => { c with served := c.served + 1 }

def setSubscribed (r : Registry) (address : Address) (subscribed : Bool) : Registry :=
  r.update address fun c => { c with subscribed }

end Registry
end LineStore
