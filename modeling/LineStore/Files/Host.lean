import LineStore.Files.AtomicWrite
import LineStore.Text.Numeral

/-!
# The host

What the stores see of the machine they run on: the file tree, the time, and what hidden file names
are made from. A hidden name carries the number of the process and a count of the writes so far. It
starts with a dot, so it is never the name of anything stored, and it does not depend on the target,
so it fits wherever the target fits.

A directory has the time of the last file operation that brought a name into it or took one out of
it (`settle`). A write is several operations: a hidden file that came and went again has left the
directory's names as they were, and its time is another one.
-/

namespace LineStore

/-- The machine as the stores see it. -/
structure Host where
  tree : Tree
  now : Instant
  /-- The number of this process. -/
  process : UInt32
  /-- How many writes have begun, in one word: the count starts again after the last number. -/
  writes : UInt64
  /-- When the directories were last modified. -/
  modified : Location → Instant := fun _ => 0

namespace Host

/-- The hidden name for a write. -/
def hiddenName (process : UInt32) (writes : UInt64) : Name :=
  Utf8.encode (String.ofList
    (['.', 't', 'm', 'p', '-'] ++ Numeral.write process.toNat ++ '-' :: Numeral.write writes.toNat))

/-- The host after one file operation, which leaves `tree`. -/
def settle (host : Host) (tree : Tree) : Host :=
  { host with
    tree
    modified := fun dir =>
      if host.tree.names? dir = tree.names? dir then host.modified dir else host.now }

/-- The host after a number of operations of a write. -/
def carry (host : Host) (chunk : Nat) : Nat → AtomicWrite → Host
  | 0, _ => host
  | n + 1, w =>
    (host.settle (w.step chunk host.now host.tree).2).carry chunk n
      (w.step chunk host.now host.tree).1

section

variable {host : Host} {tree : Tree} {w : AtomicWrite} {chunk n : Nat}

@[simp] theorem settle_self (host : Host) : host.settle host.tree = host := by
  simp [settle]

theorem carry_tree :
    (host.carry chunk n w).tree = (AtomicWrite.steps chunk host.now n (w, host.tree)).2 := by
  induction n generalizing host w with
  | zero => rfl
  | succ n ih => exact ih

/-- A write does not mind how many writes have begun since. -/
theorem carry_writes (writes : UInt64) : { host with writes }.carry chunk n w =
    { host.carry chunk n w with writes } := by
  induction n generalizing host w with
  | zero => rfl
  | succ n ih => exact @ih (host.settle _) _

theorem carry_eq : host.carry chunk n w =
    { host with
      tree := (host.carry chunk n w).tree
      modified := (host.carry chunk n w).modified } := by
  induction n generalizing host w with
  | zero => rfl
  | succ n ih => exact @ih (host.settle _) _

end

/-- The next write to a target, about to begin. -/
def prepare (host : Host) (target : Path) (content : Bytes) (mode : WriteMode) : AtomicWrite :=
  { target, content, mode, temp := target.sibling (hiddenName host.process host.writes) }

/-- The host after a whole write, which leaves `tree`. -/
def wrote (host : Host) (w : AtomicWrite) (tree : Tree) : Host :=
  { host with
    tree
    writes := host.writes + 1
    modified := (host.carry w.content.length 4 w).modified }

/-- Writes to a target atomically. -/
def writeAtomic (host : Host) (target : Path) (content : Bytes) (mode : WriteMode) :
    Except FileError Unit × Host :=
  let w := host.prepare target content mode
  let (outcome, tree) := w.run host.now host.tree
  (outcome, host.wrote w tree)

/-- A write is its operations, one after the other. -/
theorem writeAtomic_eq_carry (host : Host) (target : Path) (content : Bytes) (mode : WriteMode) :
    (host.writeAtomic target content mode).2 =
      { host with writes := host.writes + 1 }.carry content.length 4
        (host.prepare target content mode) := by
  have htree : ((host.prepare target content mode).run host.now host.tree).2 =
      (host.carry content.length 4 (host.prepare target content mode)).tree := by
    rw [carry_tree]
    exact (congrArg Prod.snd (AtomicWrite.steps_four rfl host.now host.tree)).symm
  rw [carry_writes, carry_eq, ← htree]
  rfl

/-- Creates a directory with all that are missing above it. -/
def makeDirectories (host : Host) (p : Path) : Except FileError Unit × Host :=
  let (outcome, tree) := host.tree.makeDirectories p
  -- The operations only add names, so that one look at the end sees them all.
  (outcome, host.settle tree)

end Host
end LineStore
