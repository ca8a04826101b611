import LineStore.Proofs.Service.Restarts

/-!
# Where shared names come from

A hidden name is one more name of an item's file from the link that gives the item its name up to
the next operation of the same write, which takes the hidden name away. So as long as the process
never stops in between (`Careful`), files with hidden names have no other name, or are just being
linked (`Sorted`), and **once no link is under way, everything that can be read is safe from
whatever is done to other items**, stops at any point included (`kept_of_careful`).
-/

namespace LineStore.Machine

open LineStore.Tree

variable {stores : Stores} {home : Path → Location} {s t : Machine} {act : Act} {item : Item}
  {path : Path} {loc : Location} {text : String}

/-- A write has made its link and not yet removed its hidden name. -/
def Linking (s : Machine) : Prop :=
  ∃ count w, s.writes count = some w ∧ w.phase = .clearing (.ok ())

/-- Whatever happens, but the process never stops between a link and the removal. -/
def Careful (stores : Stores) : Machine → Machine → Prop :=
  Relation.ReflTransGen fun s t => ∃ act, Step stores act s t ∧ (act = .restart → ¬ s.Linking)

theorem Careful.run (h : Careful stores s t) : Run stores s t := by
  refine Relation.ReflTransGen.mono (fun _ _ hs => ?_) _ _ h
  obtain ⟨act, hs, -⟩ := hs
  exact ⟨act, hs⟩

/-- A write has made its link, and its hidden file is here. -/
def LinksAt (stores : Stores) (home : Path → Location) (s : Machine) (loc : Location) : Prop :=
  ∃ count w, ∃ item : Item, s.writes count = some w ∧ item.path stores = .ok w.target ∧
    w.phase = .clearing (.ok ()) ∧
      loc = Host.hiddenName s.host.process count :: home (item.root stores)

theorem LinksAt.linking (h : LinksAt stores home s loc) : s.Linking := by
  obtain ⟨count, w, -, hw, -, hphase, -⟩ := h
  exact ⟨count, w, hw, hphase⟩

/-- Files with hidden names have no other, or are just being linked. -/
structure Sorted (stores : Stores) (home : Path → Location) (s : Machine) : Prop where
  sound : Sound stores home s
  lone : ∀ root ∈ stores.writable, ∀ process count,
    s.host.tree.Lone (Host.hiddenName process count :: home root) ∨
      LinksAt stores home s (Host.hiddenName process count :: home root)

/-- A step that leaves the tree, and the writes that have made their links. -/
theorem Sorted.of_same (h : Sorted stores home s) (ht : Sound stores home t)
    (htree : t.host.tree = s.host.tree) (hprocess : t.host.process = s.host.process)
    (hw : ∀ count w, s.writes count = some w → w.phase = .clearing (.ok ()) →
      t.writes count = some w) : Sorted stores home t := by
  refine ⟨ht, fun root hr process count => ?_⟩
  rw [htree]
  refine (h.lone root hr process count).imp_right ?_
  rintro ⟨c, w, item, hc, hpath, hphase, hloc⟩
  exact ⟨c, w, item, hw c w hc hphase, hpath, hphase, by rw [hprocess]; exact hloc⟩

/-- A write's own hidden file. -/
theorem Sorted.own {count : UInt64} {w : AtomicWrite} (h : Sorted stores home s)
    (hw : s.writes count = some w) (hg : Going stores home s.host count w item) :
    s.host.tree.Lone (Host.hiddenName s.host.process count :: home (item.root stores)) ∨
      w.phase = .clearing (.ok ()) ∧
        (item.root stores).trim.refusal? (Host.hiddenName s.host.process count) = none := by
  refine (h.lone _ (item.root_mem stores) s.host.process count).imp_right ?_
  rintro ⟨c, v, other, hv, -, hphase, hloc⟩
  obtain rfl := (Host.hiddenName_inj (List.cons.inj hloc).1).2
  rw [hw] at hv
  cases hv
  exact ⟨hphase, hg.linked hphase⟩

theorem Sorted.advance {count : UInt64} {w : AtomicWrite} (h : Sorted stores home s)
    (hw : s.writes count = some w) (chunk : Nat) : Sorted stores home (s.advance count chunk) := by
  obtain ⟨item, hg⟩ := h.sound.going count w hw
  obtain ⟨htarget, hvisible⟩ := Item.path_ok hg.target
  have hroot := item.root_mem stores
  have hd := (h.sound.rooted.opens _ hroot).directory
  have hdeed := hg.deed h.sound.rooted chunk
  obtain ⟨written, hshift, -⟩ := hdeed.shift (hvisible _ _)
  refine ⟨h.sound.step (.advance hw chunk), fun root hr process c => ?_⟩
  rw [advance_eq hw]
  by_cases hown : Host.hiddenName process c :: home root =
      Host.hiddenName s.host.process count :: home (item.root stores)
  case pos =>
    rw [hown]
    refine (hdeed.lone hd (hvisible _ _) (h.own hw hg)).imp_right fun hphase => ?_
    exact ⟨count, _, item, Function.update_self .., hg.target, hphase, rfl⟩
  case neg =>
    rcases h.lone root hr process c with hl | ⟨c', v, other, hv, hpath, hphase, hloc⟩
    · exact .inl (hl.shift hd hshift hown fun he => hvisible _ _ (List.cons.inj he).1)
    · refine .inr ⟨c', v, other, ?_, hpath, hphase, hloc⟩
      refine (Function.update_of_ne ?_ ..).trans hv
      rintro rfl
      -- The write that has made its link there would be this one.
      rw [hw] at hv
      cases hv
      have hname : other.fileName = item.fileName := by
        have he := congrArg (·.segments.getLast?) ((Item.path_ok hpath).1.symm.trans htarget)
        simpa [Path.child] using he
      apply hown
      rw [hloc, Item.root_eq hname]

/-- **Every careful step keeps hidden files to themselves.** -/
theorem Sorted.step (h : Sorted stores home s) (hs : Step stores act s t)
    (hcare : act = .restart → ¬ s.Linking) : Sorted stores home t := by
  have ht := h.sound.step hs
  cases hs with
  | advance hw chunk => exact h.advance hw chunk
  | launch _ _ hf =>
    refine h.of_same ht rfl rfl fun count w hw _ => (Function.update_of_ne ?_ ..).trans hw
    rintro rfl
    rw [hf] at hw
    cases hw
  | retire hdone hphase =>
    refine h.of_same ht rfl rfl fun count w hw hlinked => (Function.update_of_ne ?_ ..).trans hw
    rintro rfl
    rw [hdone] at hw
    cases hw
    rw [hphase] at hlinked
    cases hlinked
  | wait now => exact h.of_same ht rfl rfl fun _ _ hw _ => hw
  | restart process =>
    refine ⟨ht, fun root hr process count => .inl ?_⟩
    rcases h.lone root hr process count with hl | hl
    · exact hl
    · exact absurd hl.linking (hcare rfl)
  | @delete _ name target after hd hu =>
    have hshift := h.sound.rooted.shift_of_unlink hd hu
    have hd : Item.path stores (.document name) = .ok target := hd
    obtain ⟨-, hvisible⟩ := Item.path_ok hd
    have hdir := (h.sound.rooted.opens _ (Item.root_mem (.document name) stores)).directory
    refine ⟨ht, fun root hr process count => ?_⟩
    rcases h.lone root hr process count with hl | hl
    · have hne : Host.hiddenName process count :: home root ≠
          Documents.fileName name :: home stores.documents.root := fun he =>
        hvisible _ _ (List.cons.inj he).1
      exact .inl (hl.shift hdir hshift hne hne)
    · exact .inr hl

theorem Sorted.run (h : Sorted stores home s) (hr : Careful stores s t) :
    Sorted stores home t := by
  induction hr with
  | refl => exact h
  | tail _ hs ih =>
    obtain ⟨act, hs, hcare⟩ := hs
    exact ih.step hs hcare

/-- Names are shared only while a link is under way. -/
theorem linking_of_shadowed {host : Host} (hclean : Clean stores host.tree)
    (hrun : Careful stores (atRest host) s) (h : Shadowed stores s item) : s.Linking := by
  obtain ⟨home, hstart, hvacant⟩ := sound_atRest hclean
  have hsorted : Sorted stores home (atRest host) :=
    ⟨hstart, fun root hr process count => .inl (.of_vacant (hvacant root hr process count))⟩
  have hs := hsorted.run hrun
  obtain ⟨path, hp, root, hr, process, count, _, file, _, other, hhidden, hfound, hid⟩ := h
  rw [(Item.path_ok hp).1] at hfound
  obtain ⟨-, hg, rfl⟩ := (hs.sound.rooted.follow_child hr root.alike_trim).1 hhidden
  obtain ⟨-, ho, rfl⟩ := (hs.sound.rooted.follow_child (item.root_mem stores) (.refl _)).1 hfound
  rcases hs.lone root hr process count with hl | hl
  · obtain ⟨_, he, honly⟩ := hl _ hg
    cases he
    exact absurd (List.cons.inj (honly _ _ ho hid.symm)).1.symm ((Item.path_ok hp).2 _ _)
  · exact hl.linking

/-- **What a careful run has published is safe**, except while a link is under way. -/
theorem kept_of_careful {host : Host} (hclean : Clean stores host.tree)
    (hrun : Careful stores (atRest host) s) (hnone : ¬ s.Linking)
    (hread : item.read stores s.host.tree = .ok text) (hbeside : Beside stores item s t) :
    item.read stores t.host.tree = .ok text := by
  obtain ⟨home, hstart, -⟩ := sound_atRest hclean
  apply (hstart.run hrun.run).kept hread _ hbeside
  exact fun hshadow => hnone (linking_of_shadowed hclean hrun hshadow)

end LineStore.Machine
