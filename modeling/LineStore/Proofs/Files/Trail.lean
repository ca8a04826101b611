import LineStore.Files.Walk

/-!
# Trails

A walk answers with a place and forgets how it got there. `Leads` is the same walk as a relation:
from this directory, through these steps, to that directory, with so many links left to pass. As a
relation it can be cut and joined, and it says by its constructors which entries the walk looks at:
**only directories and links**. So writing files, anywhere, keeps every trail (`Leads.mono`), and
what a store did under its root never moves the root.

The bridge to the walk has two directions. A trail can be gone first and the rest of the path walked
after (`Leads.walk_append`), and a walk that ends at a directory has gone a trail (`leads_of_walk`).
A walk that ends anywhere else has no way on (`walk_append_of_error`).
-/

namespace LineStore
namespace Tree

variable {tree : Tree} {ending : Ending} {links left : Nat} {dir last : Location}
  {steps rest : List Segment}

/-! ## The walk, one step at a time -/

/-- How a walk goes on at a link in `dir`, with `rest` still to do. -/
def hop (tree : Tree) (ending : Ending) :
    Nat → Location → Path → List Segment → Except FileError Place
  | 0, _, _, _ => .error .tooManyLinks
  | links + 1, dir, target, rest =>
    if target.isEmpty then .error .absent
    else tree.walk ending links (if target.absolute then [] else dir) (target.steps ++ rest)

theorem walk_eq_advance (tree : Tree) (ending : Ending) (links : Nat) :
    tree.walk ending links = tree.advance ending (tree.hop ending links) := by
  cases links <;> rfl

@[simp] theorem walk_nil : tree.walk ending links dir [] = .ok (.found dir .directory) := by
  rw [walk_eq_advance]; rfl

theorem walk_stays {step : Segment} (hs : step.stays = true) :
    tree.walk ending links dir (step :: rest) = tree.walk ending links dir rest := by
  rw [walk_eq_advance]
  cases step with
  | blank | here => rfl
  | up | name _ => exact absurd hs (by simp [Segment.stays])

@[simp] theorem walk_up :
    tree.walk ending links dir (.up :: rest) = tree.walk ending links dir.tail rest := by
  rw [walk_eq_advance]; rfl

theorem walk_name (n : Name) :
    tree.walk ending links dir (.name n :: rest) =
      if ending = .asFile ∧ rest ≠ [] ∧ rest.all (· = .blank) then .error .isDirectory
      else if nameLimit < n.length then .error .nameTooLong
      else
        match tree.get? (n :: dir) with
        | none => if rest = [] then .ok (.vacant dir n) else .error .absent
        | some .directory => tree.walk ending links (n :: dir) rest
        | some (.file f) =>
          if rest = [] then .ok (.found (n :: dir) (.file f)) else .error .notDirectory
        | some (.link target) =>
          if rest = [] ∧ ending = .itself then .ok (.found (n :: dir) (.link target))
          else tree.hop ending links dir (.ofBytes target) rest := by
  rw [walk_eq_advance]; rfl

/-- The walk's own induction: on the steps, and at a link on the number of links that are left. -/
theorem walk_induction {motive : Nat → Location → List Segment → Prop}
    (done : ∀ links dir, motive links dir [])
    (stay : ∀ links dir step rest, step.stays = true → motive links dir rest →
      motive links dir (step :: rest))
    (up : ∀ links dir rest, motive links dir.tail rest → motive links dir (.up :: rest))
    (name : ∀ links dir n rest, motive links (n :: dir) rest →
      (∀ left other target, links = left + 1 → motive left other (target ++ rest)) →
      motive links dir (.name n :: rest)) :
    ∀ links dir steps, motive links dir steps := by
  intro links
  induction links using Nat.strongRecOn with
  | ind links outer =>
    intro dir steps
    induction steps generalizing dir with
    | nil => exact done links dir
    | cons step rest ih =>
      cases step with
      | blank => exact stay _ _ _ _ rfl (ih dir)
      | here => exact stay _ _ _ _ rfl (ih dir)
      | up => exact up _ _ _ (ih dir.tail)
      | name n =>
        exact name _ _ _ _ (ih (n :: dir)) fun left other target hl =>
          outer left (by omega) other (target ++ rest)

/-! ## Trails -/

/-- `tree.Leads links dir steps left last`: with `links` links to pass, the steps lead from the
directory `dir` to the directory `last`, and `left` links are left. -/
inductive Leads (tree : Tree) : Nat → Location → List Segment → Nat → Location → Prop
  | done {links : Nat} {dir : Location} : Leads tree links dir [] links dir
  | stay {links left : Nat} {dir last : Location} {step : Segment} {rest : List Segment}
      (hs : step.stays = true) (h : Leads tree links dir rest left last) :
      Leads tree links dir (step :: rest) left last
  | up {links left : Nat} {dir last : Location} {rest : List Segment}
      (h : Leads tree links dir.tail rest left last) : Leads tree links dir (.up :: rest) left last
  | enter {links left : Nat} {dir last : Location} {n : Name} {rest : List Segment}
      (hn : n.length ≤ nameLimit) (hd : tree.get? (n :: dir) = some .directory)
      (h : Leads tree links (n :: dir) rest left last) :
      Leads tree links dir (.name n :: rest) left last
  | hop {links left : Nat} {dir last : Location} {n : Name} {target : Bytes} {rest : List Segment}
      (hn : n.length ≤ nameLimit) (hl : tree.get? (n :: dir) = some (.link target))
      (ht : (Path.ofBytes target).isEmpty = false)
      (h : Leads tree links (if (Path.ofBytes target).absolute then [] else dir)
        ((Path.ofBytes target).steps ++ rest) left last) :
      Leads tree (links + 1) dir (.name n :: rest) left last

theorem Leads.append {more : List Segment} {fewer : Nat} {next : Location}
    (h : tree.Leads links dir steps left last) (h' : tree.Leads left last more fewer next) :
    tree.Leads links dir (steps ++ more) fewer next := by
  induction h with
  | done => exact h'
  | stay hs _ ih => exact .stay hs (ih h')
  | up _ ih => exact .up (ih h')
  | enter hn hd _ ih => exact .enter hn hd (ih h')
  | hop hn hl ht _ ih =>
    rw [List.cons_append]
    refine .hop hn hl ht ?_
    rw [← List.append_assoc]
    exact ih h'

theorem Leads.split {more : List Segment} (h : tree.Leads links dir (steps ++ more) left last) :
    ∃ fewer next, tree.Leads links dir steps fewer next ∧ tree.Leads fewer next more left last := by
  generalize hall : steps ++ more = all at h
  induction h generalizing steps with
  | done =>
    obtain ⟨rfl, rfl⟩ := List.append_eq_nil_iff.1 hall
    exact ⟨_, _, .done, .done⟩
  | stay hs h ih =>
    cases steps with
    | nil => cases hall; exact ⟨_, _, .done, .stay hs h⟩
    | cons step steps =>
      cases hall
      obtain ⟨fewer, next, h₁, h₂⟩ := ih rfl
      exact ⟨fewer, next, .stay hs h₁, h₂⟩
  | up h ih =>
    cases steps with
    | nil => cases hall; exact ⟨_, _, .done, .up h⟩
    | cons step steps =>
      cases hall
      obtain ⟨fewer, next, h₁, h₂⟩ := ih rfl
      exact ⟨fewer, next, .up h₁, h₂⟩
  | enter hn hd h ih =>
    cases steps with
    | nil => cases hall; exact ⟨_, _, .done, .enter hn hd h⟩
    | cons step steps =>
      cases hall
      obtain ⟨fewer, next, h₁, h₂⟩ := ih rfl
      exact ⟨fewer, next, .enter hn hd h₁, h₂⟩
  | hop hn hl ht h ih =>
    cases steps with
    | nil => cases hall; exact ⟨_, _, .done, .hop hn hl ht h⟩
    | cons step steps =>
      cases hall
      obtain ⟨fewer, next, h₁, h₂⟩ := ih (List.append_assoc ..)
      exact ⟨fewer, next, .hop hn hl ht h₁, h₂⟩

theorem Leads.of_stays {front : List Segment} (hf : ∀ step ∈ front, step.stays = true)
    (h : tree.Leads links dir steps left last) :
    tree.Leads links dir (front ++ steps) left last := by
  induction front with
  | nil => exact h
  | cons step front ih =>
    exact .stay (hf step List.mem_cons_self) (ih fun s hs => hf s (List.mem_cons_of_mem _ hs))

/-- **Steps that go nowhere can be left out or put in**, wherever they stand. -/
theorem Leads.congr {other : List Segment} (h : tree.Leads links dir steps left last)
    (hs : other.filter (!·.stays) = steps.filter (!·.stays)) :
    tree.Leads links dir other left last := by
  -- Before each step that goes somewhere, `other` may have some that do not.
  have passed : ∀ {front : List Segment}, (∀ step ∈ front, ¬ (!step.stays) = true) →
      ∀ step ∈ front, step.stays = true := fun h step hm => by simpa using h step hm
  induction h generalizing other with
  | done =>
    rw [← List.append_nil other]
    exact .of_stays (passed (List.filter_eq_nil_iff.1 hs)) .done
  | stay hstays _ ih => exact ih (by rw [hs, List.filter_cons_of_neg (by simp [hstays])])
  | up _ ih =>
    rw [List.filter_cons_of_pos rfl] at hs
    obtain ⟨front, rest, rfl, hfront, -, hrest⟩ := List.filter_eq_cons_iff.1 hs
    exact .of_stays (passed hfront) (.up (ih hrest))
  | enter hn hd _ ih =>
    rw [List.filter_cons_of_pos rfl] at hs
    obtain ⟨front, rest, rfl, hfront, -, hrest⟩ := List.filter_eq_cons_iff.1 hs
    exact .of_stays (passed hfront) (.enter hn hd (ih hrest))
  | hop hn hl ht _ ih =>
    rw [List.filter_cons_of_pos rfl] at hs
    obtain ⟨front, rest, rfl, hfront, -, hrest⟩ := List.filter_eq_cons_iff.1 hs
    refine .of_stays (passed hfront) (.hop hn hl ht (ih ?_))
    rw [List.filter_append, List.filter_append, hrest]

theorem Leads.left_le (h : tree.Leads links dir steps left last) : left ≤ links := by
  induction h with
  | done => exact Nat.le_refl _
  | stay _ _ ih | up _ ih | enter _ _ _ ih => exact ih
  | hop _ _ _ _ ih => exact Nat.le_succ_of_le ih

/-- Every directory and every link of one tree stands in the other as well. -/
def KeepsWays (tree other : Tree) : Prop :=
  ∀ loc node, (∀ f, node ≠ .file f) → tree.get? loc = some node → other.get? loc = some node

/-- **A trail is kept wherever directories and links are.** -/
theorem Leads.mono {other : Tree} (hk : tree.KeepsWays other)
    (h : tree.Leads links dir steps left last) : other.Leads links dir steps left last := by
  induction h with
  | done => exact .done
  | stay hs _ ih => exact .stay hs ih
  | up _ ih => exact .up ih
  | enter hn hd _ ih => exact .enter hn (hk _ _ (by simp) hd) ih
  | hop hn hl ht _ ih => exact .hop hn (hk _ _ (by simp) hl) ht ih

/-! ## Trails and walks -/

/-- **A trail can be gone first and the rest walked after.** How the walk takes its last step
matters only at the end, so the rest has to hold a step that is not blank, unless links are followed
anyway. -/
theorem Leads.walk_append (h : tree.Leads links dir steps left last)
    (hr : ending = .followed ∨ ∃ step ∈ rest, step ≠ .blank) :
    tree.walk ending links dir (steps ++ rest) = tree.walk ending left last rest := by
  have plain : ∀ steps : List Segment,
      ¬ (ending = .asFile ∧ steps ++ rest ≠ [] ∧ (steps ++ rest).all (· = .blank)) := by
    rintro steps ⟨rfl, _, hb⟩
    rcases hr with he | ⟨step, hm, hne⟩
    · cases he
    · have := List.all_eq_true.1 hb step (List.mem_append_right _ hm)
      exact hne (by simpa using this)
  have open' : ∀ steps : List Segment, ¬ (steps ++ rest = [] ∧ ending = .itself) := by
    rintro steps ⟨hn, rfl⟩
    obtain ⟨rfl, rfl⟩ := List.append_eq_nil_iff.1 hn
    rcases hr with he | ⟨step, hm, _⟩
    · cases he
    · cases hm
  induction h with
  | done => rfl
  | stay hs _ ih => rw [List.cons_append, walk_stays hs, ih]
  | up _ ih => rw [List.cons_append, walk_up, ih]
  | enter hn hd _ ih =>
    rw [List.cons_append, walk_name, if_neg (plain _), if_neg (by omega), hd]
    exact ih
  | hop hn hl ht _ ih =>
    rw [List.cons_append, walk_name, if_neg (plain _), if_neg (by omega), hl]
    dsimp only
    rw [if_neg (open' _), Tree.hop, ht, if_neg (by simp), ← List.append_assoc]
    exact ih

/-- **A walk that gets to its last steps has gone a trail before them.** The other direction of
`Leads.walk_append`. -/
theorem exists_leads_of_walk_more {place : Place} (hne : rest ≠ [])
    (hr : ending = .followed ∨ ∃ step ∈ rest, step ≠ .blank) :
    ∀ links dir steps, tree.walk ending links dir (steps ++ rest) = .ok place →
      ∃ left last, tree.Leads links dir steps left last ∧
        tree.walk ending left last rest = .ok place := by
  have plain : ∀ steps : List Segment,
      ¬ (ending = .asFile ∧ steps ++ rest ≠ [] ∧ (steps ++ rest).all (· = .blank)) := by
    rintro steps ⟨rfl, -, hb⟩
    rcases hr with he | ⟨step, hm, hs⟩
    · cases he
    · exact hs (of_decide_eq_true (List.all_eq_true.1 hb step (List.mem_append_right _ hm)))
  have more : ∀ steps : List Segment, steps ++ rest ≠ [] := by
    intro steps hn
    exact hne (List.append_eq_nil_iff.1 hn).2
  apply walk_induction
  case done =>
    intro links dir h
    exact ⟨links, dir, .done, h⟩
  case stay =>
    intro links dir step steps hs ih h
    rw [List.cons_append, walk_stays hs] at h
    obtain ⟨left, last, hl, hw⟩ := ih h
    exact ⟨left, last, .stay hs hl, hw⟩
  case up =>
    intro links dir steps ih h
    rw [List.cons_append, walk_up] at h
    obtain ⟨left, last, hl, hw⟩ := ih h
    exact ⟨left, last, .up hl, hw⟩
  case name =>
    intro links dir n steps ih jump h
    rw [List.cons_append, walk_name, if_neg (plain _)] at h
    split at h
    · cases h
    · rename_i hn
      split at h
      · rw [if_neg (more _)] at h
        cases h
      · rename_i hd
        obtain ⟨left, last, hl, hw⟩ := ih h
        exact ⟨left, last, .enter (by omega) hd hl, hw⟩
      · rw [if_neg (more _)] at h
        cases h
      · rename_i target ht
        rw [if_neg fun hc => more _ hc.1] at h
        cases links with
        | zero => cases h
        | succ links =>
          rw [Tree.hop] at h
          split at h
          · cases h
          · rename_i hne
            rw [← List.append_assoc] at h
            obtain ⟨left, last, hl, hw⟩ := jump links _ _ rfl h
            exact ⟨left, last, .hop (by omega) ht (by simpa using hne) hl, hw⟩

/-- For a rest that is more than blanks it does not matter how the last step is taken. -/
theorem exists_leads_of_walk_append {place : Place} (hr : ∃ step ∈ rest, step ≠ .blank) :
    ∀ links dir steps, tree.walk ending links dir (steps ++ rest) = .ok place →
      ∃ left last, tree.Leads links dir steps left last ∧
        tree.walk ending left last rest = .ok place := by
  obtain ⟨step, hm, hs⟩ := hr
  exact exists_leads_of_walk_more (List.ne_nil_of_mem hm) (.inr ⟨step, hm, hs⟩)

/-- A walk that follows links to the end and ends at a directory has gone a trail. -/
theorem leads_of_walk : ∀ links dir steps,
    tree.walk .followed links dir steps = .ok (.found last .directory) →
      ∃ left, tree.Leads links dir steps left last := by
  apply walk_induction
  case done =>
    intro links dir h
    rw [walk_nil] at h
    cases h
    exact ⟨links, .done⟩
  case stay =>
    intro links dir step rest hs ih h
    rw [walk_stays hs] at h
    obtain ⟨left, hl⟩ := ih h
    exact ⟨left, .stay hs hl⟩
  case up =>
    intro links dir rest ih h
    rw [walk_up] at h
    obtain ⟨left, hl⟩ := ih h
    exact ⟨left, .up hl⟩
  case name =>
    intro links dir n rest ih jump h
    rw [walk_name, if_neg (by simp)] at h
    split at h
    · cases h
    · rename_i hn
      split at h
      · split at h <;> cases h
      · rename_i hd
        obtain ⟨left, hl⟩ := ih h
        exact ⟨left, .enter (by omega) hd hl⟩
      · split at h <;> cases h
      · rename_i target hl
        rw [if_neg (by simp)] at h
        cases links with
        | zero => cases h
        | succ links =>
          rw [Tree.hop] at h
          split at h
          · cases h
          · rename_i ht
            obtain ⟨left, hw⟩ := jump links _ _ rfl h
            exact ⟨left, .hop (by omega) hl (by simpa using ht) hw⟩

/-- **A walk that does not end at an entry has no way on.** -/
theorem walk_append_of_error {e : FileError} (hr : rest ≠ []) : ∀ links dir steps,
    (tree.walk .followed links dir steps).bind Place.entry = .error e →
      tree.walk .followed links dir (steps ++ rest) = .error e := by
  apply walk_induction
  case done =>
    intro links dir h
    rw [walk_nil] at h
    cases h
  case stay =>
    intro links dir step steps hs ih h
    rw [walk_stays hs] at h
    rw [List.cons_append, walk_stays hs]
    exact ih h
  case up =>
    intro links dir steps ih h
    rw [walk_up] at h
    rw [List.cons_append, walk_up]
    exact ih h
  case name =>
    intro links dir n steps ih jump h
    rw [walk_name, if_neg (by simp)] at h
    rw [List.cons_append, walk_name, if_neg (by simp)]
    have hne : steps ++ rest ≠ [] := by simp [hr]
    split at h
    · rw [if_pos ‹_›]
      cases h
      rfl
    · rw [if_neg ‹_›]
      split at h
      · -- A name that is free is an end of its own, and absent once there is more to do.
        rw [if_neg hne]
        split at h <;> cases h <;> rfl
      · exact ih h
      · rw [if_neg hne]
        split at h <;> cases h
        rfl
      · rw [if_neg (by simp)] at h
        rw [if_neg (by simp)]
        cases links with
        | zero =>
          cases h
          rfl
        | succ links =>
          rw [Tree.hop] at h ⊢
          split at h
          · rw [if_pos ‹_›]
            cases h
            rfl
          · rw [if_neg ‹_›, ← List.append_assoc]
            exact jump links _ _ rfl h

/-- A walk that follows links to the end finds what is there, and that is no link. -/
theorem get?_of_walk {loc : Location} {node : Node} : ∀ links dir steps,
    tree.get? dir = some .directory →
    tree.walk .followed links dir steps = .ok (.found loc node) →
      tree.get? loc = some node ∧ ∀ target, node ≠ .link target := by
  apply walk_induction
  case done =>
    intro links dir hd h
    rw [walk_nil] at h
    cases h
    exact ⟨hd, by simp⟩
  case stay =>
    intro links dir step steps hs ih hd h
    rw [walk_stays hs] at h
    exact ih hd h
  case up =>
    intro links dir steps ih hd h
    rw [walk_up] at h
    cases dir with
    | nil => exact ih hd h
    | cons n dir => exact ih (tree.get?_dir hd) h
  case name =>
    intro links dir n steps ih jump hd h
    rw [walk_name, if_neg (by simp)] at h
    split at h
    · cases h
    · split at h
      · split at h <;> cases h
      · exact ih ‹_› h
      · split at h
        · cases h
          exact ⟨‹_›, by simp⟩
        · cases h
      · rw [if_neg (by simp)] at h
        cases links with
        | zero => cases h
        | succ links =>
          rw [Tree.hop] at h
          split at h
          · cases h
          · refine jump links _ _ rfl ?_ h
            split
            · rfl
            · exact hd

/-! ## The straight way to a location -/

/-- The straight way to a directory is a trail that passes no link, unless a name on it is longer
than any walk takes. -/
theorem leads_straight_or (links : Nat) : ∀ loc, tree.get? loc = some .directory →
    tree.Leads links [] (loc.reverse.map .name) links loc ∨
      tree.walk .followed links [] (loc.reverse.map .name) = .error .nameTooLong
  | [], _ => .inl .done
  | n :: dir, h => by
    rw [List.reverse_cons, List.map_append]
    rcases leads_straight_or links dir (tree.get?_dir h) with hl | hw
    · by_cases hn : nameLimit < n.length
      · refine .inr ?_
        rw [hl.walk_append (.inl rfl)]
        rw [List.map_singleton, walk_name, if_neg (by simp), if_pos hn]
      · exact .inl (hl.append (.enter (by omega) h .done))
    · exact .inr (walk_append_of_error (by simp) _ _ _ (by rw [hw]; rfl))

theorem walk_straight {loc : Location} {node : Node} {place : Place}
    (h : tree.get? loc = some node) (hl : ∀ target, node ≠ .link target)
    (hw : tree.walk .followed links [] (loc.reverse.map .name) = .ok place) :
    place = .found loc node := by
  cases loc with
  | nil =>
    rw [List.reverse_nil, List.map_nil, walk_nil] at hw
    cases h
    cases hw
    rfl
  | cons n dir =>
    rw [List.reverse_cons, List.map_append, List.map_singleton] at hw
    rcases leads_straight_or links dir (tree.get?_dir h) with hd | he
    · rw [hd.walk_append (.inl rfl), walk_name, if_neg (by simp), h] at hw
      split at hw
      · cases hw
      · cases node with
        | directory => rw [walk_nil] at hw; cases hw; rfl
        | file f => rw [if_pos rfl] at hw; cases hw; rfl
        | link target => exact absurd rfl (hl target)
    · rw [walk_append_of_error (by simp) _ _ _ (by rw [he]; rfl)] at hw
      cases hw

/-! ## What an answer about a path tells -/

/-- **A path is canonical at the location that the walk finds**, if nothing gets too long. -/
theorem canonical_eq_ok_iff {p : Path} {loc : Location} :
    tree.canonical p = .ok loc ↔ p.hasZero = false ∧ p.isEmpty = false ∧
      tree.outgrows linkLimit (tree.start p) p.steps = false ∧
      ∃ node, tree.walk .followed linkLimit (tree.start p) p.steps = .ok (.found loc node) := by
  unfold canonical
  cases p.hasZero with
  | true => simp
  | false =>
    cases p.isEmpty with
    | true => simp
    | false =>
      cases tree.outgrows linkLimit (tree.start p) p.steps with
      | true => simp
      | false =>
        cases tree.walk .followed linkLimit (tree.start p) p.steps with
        | error e => simp [Except.bind, Except.map]
        | ok place => cases place <;> simp [Except.bind, Except.map, Place.entry]

theorem walk_of_canonical {p : Path} {loc : Location} (h : tree.canonical p = .ok loc) :
    ∃ node, tree.walk .followed linkLimit (tree.start p) p.steps = .ok (.found loc node) :=
  (canonical_eq_ok_iff.1 h).2.2.2

theorem walk_of_follow {p : Path} {loc : Location} {node : Node}
    (h : tree.follow p = .ok (loc, node)) :
    p.fault? = none ∧
      tree.walk .followed linkLimit (tree.start p) p.steps = .ok (.found loc node) := by
  unfold follow locate at h
  cases hf : p.fault? with
  | some e => rw [hf] at h; cases h
  | none =>
    rw [hf] at h
    dsimp only at h
    cases hw : tree.walk .followed linkLimit (tree.start p) p.steps with
    | error e => rw [hw] at h; cases h
    | ok place =>
      rw [hw] at h
      cases place with
      | found loc node => cases h; exact ⟨rfl, rfl⟩
      | vacant dir n => cases h

end Tree
end LineStore
