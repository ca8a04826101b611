import LineStore.Proofs.Files.Kept
import LineStore.Store.Error

/-!
# Runs of a store

A store starts from a root that is there and empty, and from then on the root is changed by its
calls only. Everything else may change at any time: the clock, the numbers that hidden names are
made of, and the rest of the tree, as long as the root's path still leads to the root. `Reached`
collects the hosts that a store can come to, each **with the calls that led there and their
answers**, so that what a call must answer can be read off the past. What a single call can do is
`Ends`: be refused with nothing changed, or answer and leave a tree.

A map from names to texts does not notice what happens elsewhere (`Keeps.undisturbed`).
-/

namespace LineStore

/-- What happens elsewhere: the path still leads to the root, and the root has the same entries. -/
structure Undisturbed (root : Path) (home : Location) (tree other : Tree) : Prop where
  opens : other.Opens root home
  entry : ∀ n, other.get? (n :: home) = tree.get? (n :: home)

theorem Tree.Keeps.undisturbed {tree other : Tree} {root : Path} {home : Location}
    {texts : String → Option String} (h : tree.Keeps root home texts)
    (hu : Undisturbed root home tree other) : other.Keeps root home texts := by
  constructor
  case opens => exact hu.opens
  case sound => exact h.sound
  case visible => exact h.visible
  case kept =>
    intro key
    rw [hu.entry]
    exact h.kept key
  case only =>
    intro n hn
    rw [hu.entry] at hn
    exact h.only n hn

/-! ## One call -/

/-- What comes of a call: it is refused and leaves the tree as it was, or it answers and leaves a
tree. Either way it may have used up numbers for hidden names and touched directories. -/
def Ends {α : Type} (refusal? : Option StoreError) (value : α) (tree : Tree) (host : Host)
    (result : Except StoreError α × Host) : Prop :=
  match refusal? with
  | some e => result.1 = .error e ∧ result.2.tree = host.tree
  | none => result.1 = .ok value ∧ result.2.tree = tree

section

variable {α : Type} {value : α} {tree : Tree} {host : Host} {result : Except StoreError α × Host}

theorem Ends.refused {e : StoreError} (h : Ends (some e) value tree host result) :
    result.1 = .error e ∧ result.2.tree = host.tree := h

theorem Ends.done (h : Ends none value tree host result) :
    result.1 = .ok value ∧ result.2.tree = tree := h

theorem Ends.map {β : Type} {refusal? : Option StoreError} (f : α → β)
    (h : Ends refusal? value tree host result) :
    Ends refusal? (f value) tree host (result.1.map f, result.2) := by
  cases refusal? with
  | some e => exact ⟨congrArg (Except.map f) h.refused.1, h.refused.2⟩
  | none => exact ⟨congrArg (Except.map f) h.done.1, h.done.2⟩

theorem Ends.cases {refusal? : Option StoreError} (h : Ends refusal? value tree host result) :
    (∃ e, refusal? = some e ∧ result.1 = .error e ∧ result.2.tree = host.tree) ∨
      refusal? = none ∧ result.1 = .ok value ∧ result.2.tree = tree := by
  cases refusal? with
  | some e => exact .inl ⟨e, rfl, h.refused⟩
  | none => exact .inr ⟨rfl, h.done⟩

end

/-! ## A whole run -/

variable {Call Answer : Type}

/-- The hosts that a store comes to, with its past: the calls and their answers, the newest first.
-/
inductive Reached (act : Call → Host → Answer × Host) (root : Path) (home : Location) :
    Host → List (Call × Answer) → Prop
  | start {host : Host} (h : host.tree.OpensEmpty root home) : Reached act root home host []
  | call {host : Host} {past : List (Call × Answer)} (h : Reached act root home host past)
      (c : Call) : Reached act root home (act c host).2 ((c, (act c host).1) :: past)
  | meanwhile {host other : Host} {past : List (Call × Answer)}
      (h : Reached act root home host past)
      (hu : Undisturbed root home host.tree other.tree) : Reached act root home other past

/-! ## A place to start -/

/-- A host with one directory on it, in which there is nothing. -/
def Host.fresh : Host := ⟨Tree.empty.attach [] [0x64] .directory, 0, 1, 0, fun _ => 0⟩

/-- A path to that directory, with so many steps at its end that stay there. -/
def Path.winding (k : Nat) : Path := ⟨true, .name [0x64] :: List.replicate k .here, false⟩

theorem Path.length_winding (k : Nat) : (winding k).length = 2 + 2 * k := by
  have hl : ∀ k (piece : Bytes), ((piece :: List.replicate k [0x2E]).intersperse
      [Segment.separator]).flatten.length = piece.length + 2 * k := by
    intro k
    induction k with
    | zero => intro piece; simp
    | succ k ih =>
      intro piece
      rw [List.replicate_succ, List.intersperse_cons_cons, List.flatten_cons, List.flatten_cons,
        List.length_append, List.length_append, ih]
      simp only [List.length_cons, List.length_nil]
      omega
  have hs : (winding k).segments.map Segment.toBytes = [0x64] :: List.replicate k [0x2E] := by
    simp [winding, Segment.toBytes]
  unfold length toBytes
  rw [hs, List.length_append, List.length_append, hl]
  simp only [winding, List.length_cons, List.length_nil, if_true, if_false, Bool.false_eq_true]
  omega

theorem Tree.walk_replicate_here {tree : Tree} {ending : Ending} {links : Nat} {dir : Location}
    (k : Nat) :
    tree.walk ending links dir (List.replicate k .here) = .ok (.found dir .directory) := by
  induction k with
  | zero => exact walk_nil
  | succ k ih =>
    rw [List.replicate_succ, walk_stays rfl]
    exact ih

theorem Host.opensEmpty_fresh {k : Nat} (hk : (Path.winding k).length ≤ Path.limit) :
    Host.fresh.tree.OpensEmpty (.winding k) [[0x64]] := by
  have hg : ∀ loc, Host.fresh.tree.get? loc =
      if loc = [[0x64]] then some .directory else Tree.empty.get? loc :=
    Tree.get?_attach rfl rfl
  have hf : (Path.winding k).fault? = none :=
    Path.fault?_eq_none_iff.2 ⟨by simp [Path.winding, Path.hasZero], hk, rfl⟩
  have hs : (Path.winding k).steps = .name [0x64] :: List.replicate k .here := by
    simp [Path.winding, Path.steps]
  refine ⟨?_, ?_, fun n => ?_⟩
  · rw [Tree.follow, Tree.locate, hf, hs]
    dsimp only
    rw [Tree.walk_name, if_neg (by simp), if_neg (by decide),
      show Host.fresh.tree.start (.winding k) = [] from rfl, hg, if_pos rfl]
    dsimp only
    rw [Tree.walk_replicate_here]
    rfl
  · rw [hg, if_pos rfl]
  · rw [hg, if_neg (by simp)]
    rfl

end LineStore
