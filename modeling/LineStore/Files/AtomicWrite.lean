import LineStore.Files.Calls

/-!
# Atomic writes

New content is written to a hidden file beside its target and then published in one step, so that
whoever reads the target sees all of the old bytes or all of the new. Publishing replaces what
stands at the target, or gives the finished file a second name there and fails if anything stands in
the way; either way the hidden name is gone at the end.

The write is a machine that takes one file operation at a time. `run` is the write with nobody else
about. Between two of its steps anything may happen to the tree, and statements about crashes and
about other writers are statements about `step`.
-/

namespace LineStore

/-- What publishing does when the target is taken. -/
inductive WriteMode
  /-- It is replaced. -/
  | replace
  /-- The write fails. -/
  | createNew
  deriving DecidableEq, Repr

/-- How far a write has come. -/
inductive WritePhase
  /-- The hidden file is not open yet. -/
  | opening
  /-- The hidden file is open, and `rest` is still to be written. -/
  | writing (file : Nat) (rest : Bytes)
  /-- The hidden file is complete. -/
  | publishing
  /-- The outcome is settled, and the hidden name is to be removed. -/
  | clearing (outcome : Except FileError Unit)
  | done (outcome : Except FileError Unit)
  deriving Repr

/-- A write on its way. -/
structure AtomicWrite where
  target : Path
  /-- The path of the hidden file. -/
  temp : Path
  content : Bytes
  mode : WriteMode
  phase : WritePhase := .opening
  deriving Repr

namespace AtomicWrite

/-- Publishes the hidden file under the target's name. -/
def publish (w : AtomicWrite) (tree : Tree) : Except FileError Tree :=
  match w.mode with
  | .replace => tree.rename w.temp w.target
  | .createNew => tree.link w.temp w.target

/-- The tree without the hidden name, if it is there and can be removed. -/
def clear (w : AtomicWrite) (tree : Tree) : Tree :=
  match tree.unlink w.temp with
  | .ok tree => tree
  | .error _ => tree

/-! ## One operation at a time -/

/-- The phase in which `rest` is still to be written. -/
def afterBytes (file : Nat) (rest : Bytes) : WritePhase :=
  if rest = [] then .publishing else .writing file rest

/-- The phase that follows publishing. A file that was moved has left no hidden name behind. -/
def afterPublish : WriteMode → WritePhase
  | .replace => .done (.ok ())
  | .createNew => .clearing (.ok ())

/-- The phase and the tree after the next file operation. A write puts down `chunk` bytes, one at
the least and what is left at the most. -/
def advance (w : AtomicWrite) (chunk : Nat) (now : Instant) (tree : Tree) : WritePhase × Tree :=
  match w.phase with
  | .opening =>
    match tree.create w.temp now with
    | .ok (file, tree) => (afterBytes file w.content, tree)
    | .error e => (.clearing (.error e), tree)
  | .writing file rest =>
    (afterBytes file (rest.drop (max 1 chunk)),
      tree.append file (rest.take (max 1 chunk)) now)
  | .publishing =>
    match w.publish tree with
    | .ok tree => (afterPublish w.mode, tree)
    | .error e => (.clearing (.error e), tree)
  | .clearing outcome => (.done outcome, w.clear tree)
  | .done outcome => (.done outcome, tree)

/-- The write and the tree after the next file operation. -/
def step (w : AtomicWrite) (chunk : Nat) (now : Instant) (tree : Tree) : AtomicWrite × Tree :=
  ({ w with phase := (w.advance chunk now tree).1 }, (w.advance chunk now tree).2)

/-- The write and the tree after a number of operations with nobody else about. -/
def steps (chunk : Nat) (now : Instant) : Nat → AtomicWrite × Tree → AtomicWrite × Tree
  | 0, state => state
  | n + 1, (w, tree) => steps chunk now n (w.step chunk now tree)

/-! ## All at once -/

/-- The outcome and the tree after publishing and clearing. -/
def finish (w : AtomicWrite) (tree : Tree) : Except FileError Unit × Tree :=
  match w.publish tree with
  | .error e => (.error e, w.clear tree)
  | .ok tree =>
    match w.mode with
    | .replace => (.ok (), tree)
    | .createNew => (.ok (), w.clear tree)

/-- The outcome and the tree after the whole write. -/
def run (w : AtomicWrite) (now : Instant) (tree : Tree) : Except FileError Unit × Tree :=
  match tree.create w.temp now with
  | .error e => (.error e, w.clear tree)
  | .ok (file, tree) =>
    w.finish (if w.content = [] then tree else tree.append file w.content now)

private theorem steps_publishing {w : AtomicWrite} (h : w.phase = .publishing) (chunk : Nat)
    (now : Instant) (tree : Tree) :
    steps chunk now 2 (w, tree) =
      ({ w with phase := .done (w.finish tree).1 }, (w.finish tree).2) := by
  simp only [steps, step, advance, h, finish]
  cases hp : w.publish tree with
  | error e => rfl
  | ok tree => cases hm : w.mode <;> rfl

/-- Four operations complete a write that puts down its content in one. -/
theorem steps_four {w : AtomicWrite} (h : w.phase = .opening) (now : Instant) (tree : Tree) :
    steps w.content.length now 4 (w, tree) =
      ({ w with phase := .done (w.run now tree).1 }, (w.run now tree).2) := by
  simp only [run]
  cases hc : tree.create w.temp now with
  | error e => simp only [steps, step, advance, h, hc]; rfl
  | ok made =>
    obtain ⟨file, made⟩ := made
    by_cases hn : w.content = []
    · have one : w.step w.content.length now tree = ({ w with phase := .publishing }, made) := by
        simp [step, advance, h, hc, afterBytes, hn]
      have two := steps_publishing (w := { w with phase := .publishing }) rfl w.content.length
        now made
      simp only [if_pos hn]
      rw [show steps _ now 4 (w, tree) = steps _ now 1 (steps w.content.length now 2
        (w.step w.content.length now tree)) from rfl, one, two]
      rfl
    · have one : w.step w.content.length now tree =
          ({ w with phase := .writing file w.content }, made) := by
        simp [step, advance, h, hc, afterBytes, hn]
      have full : max 1 w.content.length = w.content.length := by
        have := List.length_pos_iff.2 hn
        omega
      have two := steps_publishing (w := { w with phase := .publishing }) rfl w.content.length
        now (made.append file w.content now)
      simp only [if_neg hn]
      rw [show steps _ now 4 (w, tree) = steps w.content.length now 2 (steps w.content.length
        now 1 (w.step w.content.length now tree)) from rfl, one]
      simp only [steps, step, advance, full, List.drop_length, List.take_length, afterBytes,
        if_true] at two ⊢
      exact two

end AtomicWrite
end LineStore
