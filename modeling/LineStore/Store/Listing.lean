import LineStore.Files.Tree
import LineStore.Json.Printer

/-!
# Listings

One line of a listing says what a document is called and when it was last written. Listings go from
the newest document to the oldest, by the full time; documents of the same moment go by name. What
is shown of the time is coarser: whole milliseconds, in one word, and zero for anything before the
epoch.
-/

namespace LineStore

/-- What is shown of a moment: milliseconds since the epoch. -/
def epochMillis (t : Instant) : Nat := (t / 1000000).toNat % UInt64.size

/-- A document in a listing. -/
structure ListEntry where
  name : String
  /-- When it was last written, in milliseconds since the epoch. -/
  modified : Nat
  deriving DecidableEq, Repr

namespace ListEntry

/-- The entry as a JSON value. -/
def toValue (e : ListEntry) : Json.Value :=
  .object [("name", .string e.name), ("modified", .natural e.modified)]

/-- The entry as JSON text. -/
def render (e : ListEntry) : String := e.toValue.render

/-- A listing as JSON text. -/
def renderAll (entries : List ListEntry) : String :=
  Json.Value.render (.array (entries.map toValue))

end ListEntry

namespace Listing

/-- Whether a document comes no later than another in a listing. -/
def precedes (a b : Instant × String) : Bool := b.1 < a.1 || (a.1 = b.1 && a.2 ≤ b.2)

/-- The documents from the newest to the oldest. -/
def sort (found : List (Instant × String)) : List (Instant × String) := found.mergeSort precedes

/-- The listing of documents with their times. -/
def ofFound (found : List (Instant × String)) : List ListEntry :=
  (sort found).map fun (modified, name) => ⟨name, epochMillis modified⟩

end Listing
end LineStore
