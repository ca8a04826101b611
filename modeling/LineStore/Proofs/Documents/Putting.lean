import Mathlib.Control.Monad.Basic
import LineStore.Proofs.Documents.Map
import LineStore.Proofs.Files.Bystanders
import LineStore.Proofs.Files.Course

/-!
# A put step by step

A put that may not overwrite looks whether there is a document, and then writes; the write is one
file operation at a time. Between two of its steps others may do what they like. So a `course` is
given the tree that is found at each step, any tree at all; a put with nobody else about is the one
in which each step finds what the one before it left (`put_eq_alone`).

Whatever is found, a put that succeeds has made its link at a step at which nothing stood under the
document's name (`vacant_of_linked`). If the others leave its hidden file alone, none of its steps
touches an entry of another name (`step_keeps`), and it is answered that the document exists if
something stands there when the link is to be made (`answer_of_taken`).
-/

namespace LineStore.Documents

deriving instance DecidableEq for WritePhase

/-- A put that may not overwrite, with the numbers that the hidden name of its write is made from. -/
structure Request where
  name : String
  content : String
  process : UInt32
  writes : UInt64

/-- How far a put has come. -/
inductive Putting
  | looking
  | writing (phase : WritePhase)
  | answered (answer : Except StoreError String)
  deriving DecidableEq

namespace Request

def hidden (r : Request) : Name := Host.hiddenName r.process r.writes

/-- What the outcome of the write makes of the put. -/
def answer (r : Request) : Except FileError Unit → Except StoreError String
  | .ok () => .ok r.content
  | .error .occupied => .error (.alreadyExists r.name)
  | .error e => .error (.ofFile e)

/-- The write of the put, about to begin. -/
def write (r : Request) (store : Documents) : AtomicWrite where
  target := store.root.child (fileName r.name)
  temp := (store.root.child (fileName r.name)).sibling r.hidden
  content := Utf8.encode r.content
  mode := .createNew

/-- What a put finds when it looks. -/
def look (r : Request) (store : Documents) (tree : Tree) : Putting :=
  match store.path r.name with
  | .error e => .answered (.error e)
  | .ok path =>
    match tree.fileExists path with
    | .error e => .answered (.error (.ofFile e))
    | .ok true => .answered (.error (.alreadyExists r.name))
    | .ok false => .writing .opening

/-- A put whose write is done has its answer. -/
def resume (r : Request) : WritePhase → Putting
  | .done outcome => .answered (r.answer outcome)
  | phase => .writing phase

/-- How far the put has come after the next file operation, and the tree. -/
def step (r : Request) (store : Documents) (chunk : Nat) (now : Instant) (tree : Tree) :
    Putting → Putting × Tree
  | .looking => (r.look store tree, tree)
  | .writing phase =>
    (r.resume ({ r.write store with phase }.advance chunk now tree).1,
      ({ r.write store with phase }.advance chunk now tree).2)
  | .answered answer => (.answered answer, tree)

variable {r : Request} {store : Documents} {chunk : Nat} {now : Instant} {tree : Tree}
  {putting : Putting} {loc : Location} {node : Node}

theorem write_temp (r : Request) (store : Documents) :
    (r.write store).temp = store.root.trim.child r.hidden := Path.sibling_child ..

theorem publish_write (r : Request) (store : Documents) (tree : Tree) :
    (r.write store).publish tree =
      tree.link (store.root.trim.child r.hidden) (store.root.child (fileName r.name)) := by
  rw [← write_temp]
  rfl

/-! ## A put alone -/

/-- A put and the tree after a number of steps with nobody else about. -/
def alone (r : Request) (store : Documents) (chunk : Nat) (now : Instant) :
    Nat → Putting × Tree → Putting × Tree
  | 0, state => state
  | n + 1, (putting, tree) => r.alone store chunk now n (r.step store chunk now tree putting)

theorem alone_answered (answer : Except StoreError String) (n : Nat) :
    r.alone store chunk now n (.answered answer, tree) = (.answered answer, tree) := by
  induction n with
  | zero => rfl
  | succ n ih => exact ih

theorem steps_of_done {w : AtomicWrite} {outcome : Except FileError Unit}
    (h : w.phase = .done outcome) (n : Nat) :
    AtomicWrite.steps chunk now n (w, tree) = (w, tree) := by
  induction n with
  | zero => rfl
  | succ n ih =>
    have hstep : w.step chunk now tree = (w, tree) := by
      rw [AtomicWrite.step, AtomicWrite.advance, h]
      dsimp only
      rw [← h]
    rw [AtomicWrite.steps, hstep, ih]

/-- A put that writes goes on as its write does. -/
theorem alone_resume (n : Nat) (phase : WritePhase) (tree : Tree) :
    r.alone store chunk now n (r.resume phase, tree) =
      (r.resume (AtomicWrite.steps chunk now n ({ r.write store with phase }, tree)).1.phase,
        (AtomicWrite.steps chunk now n ({ r.write store with phase }, tree)).2) := by
  induction n generalizing phase tree with
  | zero => rfl
  | succ n ih =>
    cases phase with
    | done outcome =>
      rw [steps_of_done rfl]
      exact alone_answered _ _
    | opening | writing _ _ | publishing | clearing _ =>
      exact ih _ _

/-- **A put with nobody else about is the put as a whole.** -/
theorem put_eq_alone (store : Documents) (name content : String) (host : Host) :
    let r : Request := ⟨name, content, host.process, host.writes⟩
    r.alone store (Utf8.encode content).length host.now 5 (.looking, host.tree) =
      (.answered (store.put name content false host).1,
        (store.put name content false host).2.tree) := by
  intro r
  show r.alone store _ _ 4 (r.look store host.tree, host.tree) = _
  rw [look]
  by_cases hn : Identifier.isDocumentName name = true
  case neg =>
    rw [path_invalid hn, alone_answered, put, path_invalid hn]
  case pos =>
    rw [path_eq hn, put, path_eq hn]
    dsimp only
    rw [if_neg (by simp)]
    cases host.tree.fileExists (store.root.child (fileName name)) with
    | error e => exact alone_answered _ _
    | ok found =>
      cases found with
      | true => exact alone_answered _ _
      | false =>
        have hrun : AtomicWrite.steps (Utf8.encode content).length host.now 4
            ({ r.write store with phase := .opening }, host.tree) = _ :=
          AtomicWrite.steps_four (w := host.prepare (store.root.child (fileName name))
            (Utf8.encode content) .createNew) rfl host.now host.tree
        refine (alone_resume 4 .opening host.tree).trans ?_
        rw [hrun]
        dsimp only
        rw [if_neg (by simp), Host.writeAtomic]
        cases (host.prepare (store.root.child (fileName name)) (Utf8.encode content)
          .createNew).run host.now host.tree with
        | mk outcome after =>
          cases outcome with
          | ok _ => rfl
          | error e => cases e <;> rfl

/-! ## A put among others -/

/-- How far a put has come after a number of steps, in which it finds these trees. -/
def course (r : Request) (store : Documents) (found : Nat → Tree) (moves : Nat → Nat × Instant) :
    Nat → Putting
  | 0 => .looking
  | i + 1 =>
    (r.step store (moves i).1 (moves i).2 (found i) (r.course store found moves i)).1

/-- The tree that a step leaves. -/
def leaves (r : Request) (store : Documents) (found : Nat → Tree) (moves : Nat → Nat × Instant)
    (i : Nat) : Tree :=
  (r.step store (moves i).1 (moves i).2 (found i) (r.course store found moves i)).2

/-- More steps than this are not to come. -/
def left (r : Request) : Putting → Nat
  | .looking => (Utf8.encode r.content).length + 5
  | .writing phase => phase.left (Utf8.encode r.content)
  | .answered _ => 0

theorem left_resume (r : Request) (phase : WritePhase) :
    r.left (r.resume phase) = phase.left (Utf8.encode r.content) := by
  cases phase <;> rfl

theorem look_cases (r : Request) (store : Documents) (tree : Tree) :
    (∃ e, r.look store tree = .answered (.error e)) ∨ r.look store tree = .writing .opening := by
  unfold look
  split
  · exact .inl ⟨_, rfl⟩
  · split
    · exact .inl ⟨_, rfl⟩
    · exact .inl ⟨_, rfl⟩
    · exact .inr rfl

theorem left_step (r : Request) (store : Documents) (chunk : Nat) (now : Instant) (tree : Tree)
    (putting : Putting) :
    r.left (r.step store chunk now tree putting).1 ≤ r.left putting - 1 := by
  cases putting with
  | looking =>
    show r.left (r.look store tree) ≤ (Utf8.encode r.content).length + 4
    rcases look_cases r store tree with ⟨e, he⟩ | ho
    · rw [he]
      exact Nat.zero_le _
    · rw [ho]
      exact Nat.le_refl _
  | writing phase =>
    show r.left (r.resume _) ≤ _
    rw [left_resume]
    exact AtomicWrite.left_advance { r.write store with phase } chunk now tree
  | answered answer => exact Nat.le_refl 0

theorem exists_answer_of_left (h : r.left (r.step store chunk now tree putting).1 = 0) :
    ∃ answer, (r.step store chunk now tree putting).1 = .answered answer := by
  cases putting with
  | looking =>
    rcases look_cases r store tree with ⟨e, he⟩ | ho
    · exact ⟨.error e, he⟩
    · rw [step, ho] at h
      cases h
  | writing phase =>
    rw [step, left_resume] at h
    rw [step]
    dsimp only at h ⊢
    cases hp : ({ r.write store with phase }.advance chunk now tree).1 with
    | done outcome => exact ⟨r.answer outcome, rfl⟩
    | opening | writing _ _ | publishing | clearing _ =>
      rw [hp] at h
      cases h
  | answered answer => exact ⟨answer, rfl⟩

variable {found : Nat → Tree} {moves : Nat → Nat × Instant} {i j : Nat}

theorem left_course (r : Request) (store : Documents) (found : Nat → Tree)
    (moves : Nat → Nat × Instant) (i : Nat) :
    r.left (r.course store found moves i) ≤ (Utf8.encode r.content).length + 5 - i := by
  induction i with
  | zero => exact Nat.le_refl _
  | succ i ih =>
    have hstep := r.left_step store (moves i).1 (moves i).2 (found i) (r.course store found moves i)
    rw [course]
    omega

/-- **A put comes to an answer**, whatever it finds. -/
theorem course_ends (r : Request) (store : Documents) (found : Nat → Tree)
    (moves : Nat → Nat × Instant) :
    ∃ answer, r.course store found moves ((Utf8.encode r.content).length + 5) =
      .answered answer := by
  apply exists_answer_of_left
  have hl := left_course r store found moves ((Utf8.encode r.content).length + 5)
  rw [course] at hl
  omega

theorem course_of_answered {answer : Except StoreError String}
    (h : r.course store found moves i = .answered answer) (hj : i ≤ j) :
    r.course store found moves j = .answered answer := by
  obtain ⟨d, rfl⟩ := Nat.exists_eq_add_of_le hj
  induction d with
  | zero => exact h
  | succ d ih =>
    rw [← Nat.add_assoc, course, ih (Nat.le_add_right i d)]
    rfl

/-! ## Success -/

/-- The put has made its link. -/
inductive Linked (r : Request) : Putting → Prop
  | clearing : Linked r (.writing (.clearing (.ok ())))
  | done : Linked r (.writing (.done (.ok ())))
  | answered : Linked r (.answered (.ok r.content))

theorem not_linked_afterBytes (file : Nat) (rest : Bytes) :
    ¬ r.Linked (r.resume (AtomicWrite.afterBytes file rest)) := by
  unfold AtomicWrite.afterBytes
  intro h
  split at h <;> cases h

theorem ok_of_linked_done {outcome : Except FileError Unit}
    (h : r.Linked (r.resume (.done outcome))) : outcome = .ok () := by
  cases outcome with
  | ok _ => rfl
  | error e => cases e <;> cases h

/-- Nothing but the making of a link makes a put a linked one. -/
theorem linked_of_step (h : r.Linked (r.step store chunk now tree putting).1) :
    r.Linked putting ∨ putting = .writing .publishing ∧
      tree.link (store.root.trim.child r.hidden) (store.root.child (fileName r.name)) =
        .ok (r.step store chunk now tree putting).2 := by
  cases putting with
  | looking =>
    rw [step] at h
    dsimp only at h
    rcases look_cases r store tree with ⟨e, he⟩ | ho
    · rw [he] at h
      cases h
    · rw [ho] at h
      cases h
  | answered answer => exact .inl h
  | writing phase =>
    rw [step] at h ⊢
    dsimp only at h ⊢
    cases phase with
    | opening =>
      rw [AtomicWrite.advance] at h
      dsimp only at h
      cases hc : tree.create (r.write store).temp now with
      | error e =>
        rw [hc] at h
        cases h
      | ok made =>
        rw [hc] at h
        exact absurd h (not_linked_afterBytes _ _)
    | writing file rest => exact absurd h (not_linked_afterBytes _ _)
    | publishing =>
      have hp := r.publish_write store tree
      cases hl : tree.link (store.root.trim.child r.hidden)
          (store.root.child (fileName r.name)) with
      | error e =>
        rw [AtomicWrite.advance_publishing_error (hp.trans hl)] at h
        cases h
      | ok after =>
        rw [AtomicWrite.advance_publishing_ok (hp.trans hl)]
        exact .inr ⟨rfl, rfl⟩
    | clearing outcome =>
      obtain rfl := ok_of_linked_done h
      exact .inl .clearing
    | done outcome =>
      obtain rfl := ok_of_linked_done h
      exact .inl .done

/-- **A put that has made its link made it at a step at which nothing stood there.** -/
theorem vacant_of_linked (h : r.Linked (r.course store found moves j)) : ∃ i, i < j ∧
    r.course store found moves i = .writing .publishing ∧
    ∃ dir loc node,
      (found i).locate .itself (store.root.child (fileName r.name)) =
        .ok (.vacant dir (fileName r.name)) ∧
      (found i).locate .itself (store.root.trim.child r.hidden) = .ok (.found loc node) ∧
      r.leaves store found moves i = (found i).attach dir (fileName r.name) node := by
  induction j with
  | zero => cases h
  | succ j ih =>
    rw [course] at h
    rcases linked_of_step h with hl | ⟨hp, hlink⟩
    · obtain ⟨i, hi, hrest⟩ := ih hl
      exact ⟨i, Nat.lt_succ_of_lt hi, hrest⟩
    · obtain ⟨dir, loc, node, hv, hold, hafter⟩ := Tree.vacant_of_link_ok hlink
      exact ⟨j, Nat.lt_succ_self j, hp, dir, loc, node, hv, hold, hafter⟩

/-- A put writes only under a name that documents can have, and answers with nothing but its own
content. -/
def Proper (r : Request) : Putting → Prop
  | .writing _ => Identifier.isDocumentName r.name = true
  | .answered (.ok text) => Identifier.isDocumentName r.name = true ∧ text = r.content
  | _ => True

theorem proper_look (r : Request) (store : Documents) (tree : Tree) :
    r.Proper (r.look store tree) := by
  rcases look_cases r store tree with ⟨e, he⟩ | ho
  · rw [he]
    trivial
  · rw [ho]
    by_contra hn
    rw [look, path_invalid hn] at ho
    cases ho

theorem Proper.step (h : r.Proper putting) : r.Proper (r.step store chunk now tree putting).1 := by
  cases putting with
  | looking => exact proper_look r store tree
  | answered answer => exact h
  | writing phase =>
    rw [Request.step]
    dsimp only
    cases ({ r.write store with phase }.advance chunk now tree).1 with
    | opening | writing _ _ | publishing | clearing _ => exact h
    | done outcome =>
      cases outcome with
      | ok _ => exact ⟨h, rfl⟩
      | error e => cases e <;> trivial

theorem proper_course (r : Request) (store : Documents) (found : Nat → Tree)
    (moves : Nat → Nat × Instant) (i : Nat) : r.Proper (r.course store found moves i) := by
  induction i with
  | zero => trivial
  | succ i ih => exact ih.step

theorem linked_of_answered {text : String} (h : r.Proper (.answered (.ok text))) :
    r.Linked (.answered (.ok text)) := by
  obtain ⟨-, rfl⟩ := h
  exact .answered

/-! ## The hidden file left alone -/

/-- The others leave the hidden file of the put alone: what stands there before the put is no second
name of anything, the file has no other name while it is written, and the path leads to it when it is
published. -/
def Spared (r : Request) (store : Documents) (tree : Tree) : Putting → Prop
  | .writing .opening => ∀ home, tree.Opens store.root home → tree.Lone (r.hidden :: home)
  | .writing (.writing id _) =>
    ∀ loc file, tree.get? loc = some (.file file) → file.id = id → ∃ dir, loc = r.hidden :: dir
  | .writing .publishing =>
    ∃ loc file, tree.locate .itself (store.root.trim.child r.hidden) = .ok (.found loc (.file file))
  | _ => True

/-- A hidden name holds none of the letters of the extension. -/
theorem fileName_ne_hidden (r : Request) (name : String) : fileName name ≠ r.hidden := by
  intro h
  have hx : 'x' ∈ (key name).toList := by
    rcases key_cases name with ⟨⟨stem, rfl⟩, hk⟩ | ⟨-, hk⟩
    · rw [hk, String.toList_append]
      exact List.mem_append_right _ (by decide)
    · rw [hk, String.toList_append]
      exact List.mem_append_right _ (by decide)
  have he : key name = String.ofList (Host.hiddenChars r.process r.writes) :=
    Utf8.encode_injective h
  rw [he, String.toList_ofList] at hx
  rcases Host.mem_hiddenChars hx with hm | hd
  · exact absurd hm (by decide)
  · exact absurd hd (by decide)

/-- **No step of a put touches an entry of another name than the hidden one.** -/
theorem step_keeps (hs : r.Spared store tree putting) (h : tree.get? loc = some node)
    (hm : ∀ dir, loc ≠ r.hidden :: dir) :
    (r.step store chunk now tree putting).2.get? loc = some node := by
  cases putting with
  | looking => exact h
  | answered answer => exact h
  | writing phase =>
    cases phase with
    | opening =>
      rw [step, AtomicWrite.advance]
      dsimp only
      rw [write_temp]
      cases hc : tree.create (store.root.trim.child r.hidden) now with
      | error e => exact h
      | ok made =>
        apply Tree.create_keeps (fun home ho => ?_) hc h hm
        exact hs home (ho.alike store.root.alike_trim.symm)
    | writing file rest =>
      refine Tree.setFile_keeps ?_ h
      intro other hother hid
      obtain ⟨dir, hdir⟩ := hs loc other (h.trans (h.symm.trans hother)) hid
      exact hm dir hdir
    | publishing =>
      rw [step]
      dsimp only
      cases hp : (r.write store).publish tree with
      | error e =>
        rw [AtomicWrite.advance_publishing_error hp]
        exact h
      | ok after =>
        rw [AtomicWrite.advance_publishing_ok hp]
        exact Tree.link_keeps hp h
    | clearing outcome => exact AtomicWrite.clear_keeps (r.write_temp store) h hm
    | done outcome => exact h

/-- **A put that finds something where its link is to be made answers that the document exists.** -/
theorem answer_of_taken (hp : r.course store found moves i = .writing .publishing)
    (hs : r.Spared store (found i) (r.course store found moves i))
    (h : (found i).locate .itself (store.root.child (fileName r.name)) = .ok (.found loc node))
    (hj : i + 2 ≤ j) :
    r.course store found moves j = .answered (.error (.alreadyExists r.name)) := by
  rw [hp] at hs
  obtain ⟨other, file, hold⟩ := hs
  have hpublish : (r.write store).publish (found i) = .error .occupied := by
    rw [publish_write]
    exact Tree.link_occupied hold h
  have hnext : r.course store found moves (i + 1) =
      .writing (.clearing (.error .occupied)) := by
    rw [course, hp, step]
    dsimp only
    rw [AtomicWrite.advance_publishing_error hpublish]
    rfl
  apply course_of_answered (i := i + 2) _ hj
  rw [course, hnext]
  rfl

end Request
end LineStore.Documents
