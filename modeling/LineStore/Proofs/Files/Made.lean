import LineStore.Proofs.Files.Publish

/-!
# Directories made on the way

Making a directory with all that are missing above it adds directories and takes nothing away:
`Grown` says so, and also **where** the new ones are, namely where the path and the paths on the way
to it lead. A path that turns back leads through directories that are not above its end, and those
are made as well.
-/

namespace LineStore.Tree

variable {tree middle after : Tree} {p : Path} {paths more : List Path} {home dir base : Location}
  {n : Name}

/-- Some directories came to a tree, each of them at the end of one of some paths. -/
structure Grown (paths : List Path) (tree after : Tree) : Prop where
  cwd : after.cwd = tree.cwd
  kept : ∀ loc node, tree.get? loc = some node → after.get? loc = some node
  new : ∀ loc, tree.get? loc = none → after.get? loc ≠ none →
    ∃ p ∈ paths, after.follow p = .ok (loc, .directory)

namespace Grown

theorem refl (paths : List Path) (tree : Tree) : Grown paths tree tree :=
  ⟨rfl, fun _ _ h => h, fun _ h hne => absurd h hne⟩

theorem mono (h : Grown paths tree after) (hs : ∀ p ∈ paths, p ∈ more) : Grown more tree after := by
  refine ⟨h.cwd, h.kept, fun loc hv hne => ?_⟩
  obtain ⟨p, hp, hf⟩ := h.new loc hv hne
  exact ⟨p, hs p hp, hf⟩

/-- What a path leads to stays where it is. -/
theorem follow (h : Grown paths tree after) (hf : tree.follow p = .ok (home, .directory)) :
    after.follow p = .ok (home, .directory) := by
  refine follow_directory_of_keepsWays (fun loc node _ hg => h.kept loc node hg) ?_ hf
  rw [start, start, h.cwd]

theorem trans (h : Grown paths tree middle) (h' : Grown more middle after) :
    Grown (paths ++ more) tree after := by
  refine ⟨h'.cwd.trans h.cwd, fun loc node hg => h'.kept loc node (h.kept loc node hg), ?_⟩
  intro loc hv hne
  cases hm : middle.get? loc with
  | none =>
    obtain ⟨p, hp, hf⟩ := h'.new loc hm hne
    exact ⟨p, List.mem_append_right _ hp, hf⟩
  | some node =>
    obtain ⟨p, hp, hf⟩ := h.new loc hv (by rw [hm]; simp)
    exact ⟨p, List.mem_append_left _ hp, h'.follow hf⟩

theorem directory (h : Grown paths tree after) (hd : tree.get? tree.cwd = some .directory) :
    after.get? after.cwd = some .directory := by
  rw [h.cwd]
  exact h.kept _ _ hd

end Grown

/-! ## One directory -/

theorem leads_stays {links : Nat} {steps : List Segment} (h : ∀ s ∈ steps, s.stays = true) :
    tree.Leads links dir steps links dir := by
  induction steps with
  | nil => exact .done
  | cons step steps ih =>
    exact .stay (h step List.mem_cons_self) (ih fun s hs => h s (List.mem_cons_of_mem _ hs))

theorem get?_start (hc : tree.get? tree.cwd = some .directory) (p : Path) :
    tree.get? (tree.start p) = some .directory := by
  unfold start
  split
  · exact tree.get?_nil
  · exact hc

/-- What a path leads to is there. -/
theorem get?_of_follow (hc : tree.get? tree.cwd = some .directory) {node : Node}
    (h : tree.follow p = .ok (home, node)) : tree.get? home = some node :=
  (get?_of_walk _ _ _ (get?_start hc p) (walk_of_follow h).2).1

/-- Behind the last step that is not blank there are only blanks. -/
theorem exists_blanks {steps above : List Segment} {last : Segment}
    (h : steps.reverse.dropWhile (· = .blank) = last :: above) :
    ∃ blanks, steps = above.reverse ++ last :: blanks ∧ ∀ s ∈ blanks, s.stays = true := by
  refine ⟨(steps.reverse.takeWhile (· = .blank)).reverse, ?_, fun s hm => ?_⟩
  · have hsplit := List.takeWhile_append_dropWhile
      (p := fun s : Segment => decide (s = .blank)) (l := steps.reverse)
    rw [h] at hsplit
    have hrev := congrArg List.reverse hsplit
    rw [List.reverse_append, List.reverse_reverse, List.reverse_cons, List.append_assoc] at hrev
    exact hrev.symm
  · have hblank := List.all_eq_true.1 List.all_takeWhile s (List.mem_reverse.1 hm)
    rw [of_decide_eq_true hblank]
    rfl

/-- What is above the last step of a path leads to the directory that it is in. -/
theorem leads_of_doorstep_name (hc : tree.get? tree.cwd = some .directory)
    (h : tree.doorstep p = .ok (dir, .name n)) :
    p.fault? = none ∧ tree.get? dir = some .directory ∧ ∃ above blanks left,
      p.segments = above ++ .name n :: blanks ∧ (∀ s ∈ blanks, s.stays = true) ∧
      tree.Leads linkLimit (tree.start p) above left dir := by
  unfold doorstep at h
  split at h
  · cases h
  rename_i hf
  split at h
  · cases h
  rename_i last above hs
  split at h
  case h_2 => cases h
  case h_3 => cases h
  case h_1 found node hw =>
    cases h
    obtain ⟨blanks, hsplit, hb⟩ := exists_blanks hs
    obtain ⟨left, end', hl, hw'⟩ :=
      exists_leads_of_walk_append ⟨.here, by simp, by simp⟩ _ _ _ hw
    rw [walk_stays rfl, walk_nil] at hw'
    cases hw'
    exact ⟨hf, (get?_of_walk _ _ _ (get?_start hc p) hw).1, _, blanks, left, hsplit, hb, hl⟩

/-- A name that is free stands at the end of a path to its directory. -/
theorem leads_of_freeName_ok (hc : tree.get? tree.cwd = some .directory)
    (h : tree.freeName p = .ok (dir, n)) :
    p.fault? = none ∧ n.length ≤ nameLimit ∧ tree.get? (n :: dir) = none ∧
      tree.get? dir = some .directory ∧ ∃ above blanks left,
        p.segments = above ++ .name n :: blanks ∧ (∀ s ∈ blanks, s.stays = true) ∧
        tree.Leads linkLimit (tree.start p) above left dir := by
  unfold freeName at h
  split at h
  case h_2 => cases h
  case h_3 => cases h
  case h_1 hd =>
    split at h
    case isTrue => cases h
    case isFalse hn =>
      split at h
      case isTrue => cases h
      case isFalse hv =>
        cases h
        obtain ⟨hf, hdir, hleads⟩ := leads_of_doorstep_name hc hd
        exact ⟨hf, Nat.not_lt.1 hn, by simpa using hv, hdir, hleads⟩

theorem makeDirectory_ok (hc : tree.get? tree.cwd = some .directory)
    (h : tree.makeDirectory p = .ok after) :
    Grown [p] tree after ∧ ∃ home, after.follow p = .ok (home, .directory) := by
  unfold makeDirectory at h
  cases hn : tree.freeName p with
  | error e =>
    rw [hn] at h
    cases h
  | ok free =>
    obtain ⟨dir, n⟩ := free
    rw [hn] at h
    cases h
    obtain ⟨hf, hlen, hv, hd, above, blanks, left, hs, hb, hl⟩ := leads_of_freeName_ok hc hn
    have hg : ∀ loc, (tree.attach dir n .directory).get? loc =
        if loc = n :: dir then some .directory else tree.get? loc := get?_attach hd hv
    have hk : ∀ loc node, tree.get? loc = some node →
        (tree.attach dir n .directory).get? loc = some node := by
      intro loc node hloc
      rw [hg, if_neg]
      · exact hloc
      · rintro rfl
        rw [hv] at hloc
        cases hloc
    have hfollow : (tree.attach dir n .directory).follow p = .ok (n :: dir, .directory) := by
      have hstart : (tree.attach dir n .directory).start p = tree.start p := by
        rw [start, start, attach_cwd]
      have hmade : (tree.attach dir n .directory).get? (n :: dir) = some .directory := by
        rw [hg, if_pos rfl]
      have hleads : (tree.attach dir n .directory).Leads linkLimit (tree.start p) p.segments left
          (n :: dir) := by
        rw [hs]
        exact (hl.mono fun loc node _ => hk loc node).append (.enter hlen hmade (leads_stays hb))
      rw [← hstart] at hleads
      exact hleads.follow hf
    refine ⟨⟨attach_cwd, hk, fun loc hloc hne => ?_⟩, n :: dir, hfollow⟩
    rw [hg] at hne
    split at hne
    case isFalse => exact absurd hloc hne
    case isTrue he =>
      rw [he]
      exact ⟨p, List.mem_singleton_self p, hfollow⟩

/-! ## All that are missing -/

theorem follow_of_isDirectory (h : tree.isDirectory p = true) :
    ∃ home, tree.follow p = .ok (home, .directory) := by
  unfold isDirectory at h
  split at h
  case h_1 home hf => exact ⟨home, hf⟩
  case h_2 => cases h

/-- **Only directories come, and they come at the ends of the paths.** -/
theorem makeFirst_grown (hc : tree.get? tree.cwd = some .directory) (paths : List Path) :
    Grown paths tree (makeFirst paths tree).2 := by
  induction paths with
  | nil => exact .refl _ _
  | cons p above ih =>
    rw [makeFirst]
    cases hm : tree.makeDirectory p with
    | ok after => exact (makeDirectory_ok hc hm).1.mono (by simp)
    | error e =>
      cases e with
      | absent =>
        dsimp only
        generalize makeFirst above tree = result at ih ⊢
        obtain ⟨outcome, made⟩ := result
        have hmade : Grown (p :: above) tree made := ih.mono fun q hq => List.mem_cons_of_mem _ hq
        cases outcome with
        | error e => exact hmade
        | ok _ =>
          dsimp only
          cases hp : made.makeDirectory p with
          | ok after =>
            exact (ih.trans (makeDirectory_ok (ih.directory hc) hp).1).mono (by simp [or_comm])
          | error e => exact hmade
      | _ => exact .refl _ _

theorem follow_of_makeFirst_ok (hc : tree.get? tree.cwd = some .directory) {above : List Path}
    (h : (makeFirst (p :: above) tree).1 = .ok ()) :
    ∃ home, (makeFirst (p :: above) tree).2.follow p = .ok (home, .directory) := by
  have hdir : ∀ {e : FileError} {made : Tree},
      (if made.isDirectory p = true then (.ok () : Except FileError Unit) else .error e) = .ok () →
      ∃ home, made.follow p = .ok (home, .directory) := by
    intro e made ho
    split at ho
    case isTrue hd => exact follow_of_isDirectory hd
    case isFalse => cases ho
  rw [makeFirst] at h ⊢
  cases hm : tree.makeDirectory p with
  | ok after => exact (makeDirectory_ok hc hm).2
  | error e =>
    rw [hm] at h
    cases e with
    | absent =>
      dsimp only at h ⊢
      have hg := makeFirst_grown hc above
      generalize makeFirst above tree = result at h hg ⊢
      obtain ⟨outcome, made⟩ := result
      cases outcome with
      | error e => cases h
      | ok _ =>
        dsimp only at h ⊢
        cases hp : made.makeDirectory p with
        | ok after => exact (makeDirectory_ok (hg.directory hc) hp).2
        | error e =>
          rw [hp] at h
          exact hdir h
    | _ => exact hdir h

theorem makeDirectories_grown (hc : tree.get? tree.cwd = some .directory) (p : Path) :
    Grown p.ancestors tree (tree.makeDirectories p).2 := by
  unfold makeDirectories
  split
  · exact .refl _ _
  · exact makeFirst_grown hc _

/-- **The path of a directory that was made leads to a directory.** -/
theorem follow_of_makeDirectories_ok (hc : tree.get? tree.cwd = some .directory)
    (hp : p.isEmpty = false) (h : (tree.makeDirectories p).1 = .ok ()) :
    ∃ home, (tree.makeDirectories p).2.follow p = .ok (home, .directory) := by
  unfold makeDirectories at h ⊢
  rw [if_neg (by simp [hp])] at h ⊢
  exact follow_of_makeFirst_ok hc h

/-! ## Below an empty directory -/

/-- Where a directory holds nothing, there is nothing below it. -/
theorem get?_below_empty (he : ∀ n, tree.get? (n :: base) = none) :
    ∀ {dir : Location} (n : Name), base <:+ dir → tree.get? (n :: dir) = none := by
  intro dir
  induction dir with
  | nil =>
    intro n hb
    rw [List.suffix_nil.1 hb] at he
    exact he n
  | cons m dir ih =>
    intro n hb
    rcases List.suffix_cons_iff.1 hb with hb | hb
    · rw [← hb]
      exact he n
    · cases hg : tree.get? (n :: m :: dir) with
      | none => rfl
      | some node =>
        have hm := ih m hb
        rw [tree.get?_dir hg] at hm
        cases hm

/-- Whatever is above something that is there is a directory. -/
theorem get?_above {node : Node} : ∀ {loc : Location}, tree.get? loc = some node → dir <:+ loc →
    dir = loc ∨ tree.get? dir = some .directory := by
  intro loc
  induction loc generalizing node with
  | nil => exact fun _ hd => .inl (List.suffix_nil.1 hd)
  | cons m loc ih =>
    intro hg hd
    rcases List.suffix_cons_iff.1 hd with hd | hd
    · exact .inl hd
    · rcases ih (tree.get?_dir hg) hd with rfl | hdir
      · exact .inr (tree.get?_dir hg)
      · exact .inr hdir

end LineStore.Tree
