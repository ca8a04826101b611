import LineStore.Proofs.Documents.Listed
import LineStore.Proofs.Documents.Sorting

/-!
# A listing goes by the last puts

The time that a listing goes by is on the file, and a file gets it before it is published;
publishing moves it along. So if puts come at later and later times, the listing can be read off the
past: a put that succeeds brings its document to the front, a delete takes its document out, and
nothing else moves anything. `recency` is that list, and `stamped_of_reached` carries it through a
run: **its pairs are the files under the root with their times**. Sorting by time then has nothing
left to do.
-/

namespace LineStore.Documents

variable {store : Documents} {host : Host} {home : Location}

/-! ## What a document is shown as -/

/-- The name that a listing has for a document: its key without the extension. -/
def shownAs (name : String) : String :=
  (Text.stem? extension.toList name.toList).elim name String.ofList

theorem key_eq_shownAs (name : String) : key name = shownAs name ++ extension := by
  unfold shownAs
  cases hs : Text.stem? extension.toList name.toList with
  | none =>
    have hc : ¬ Carries name := by
      rw [carries_iff_isSome, hs]
      simp
    exact key_of_not_carries hc
  | some stem =>
    have hn := stem?_eq_some_iff_carried.1 hs
    have hc : Carries name := ⟨_, hn⟩
    rw [key_of_carries hc]
    exact hn

theorem encode_eq_fileName_iff {shown name : String} :
    Utf8.encode (shown ++ extension) :: home = fileName name :: home ↔ shown = shownAs name := by
  rw [fileName_eq, key_eq_shownAs]
  constructor
  · intro h
    exact (String.append_left_inj extension).1 (Utf8.encode_injective (List.cons.inj h).1)
  · intro h
    rw [h]

/-! ## Calls with their times -/

/-- A call, and the time that is on the files it writes. -/
def actAt (store : Documents) (call : Instant × Call) (host : Host) : Answer × Host :=
  store.act call.2 { host with now := call.1 }

/-- The calls of a run with their times and answers, the newest first. -/
abbrev Record := List ((Instant × Call) × Answer)

def untimed (past : Record) : History := past.map fun entry => (entry.1.2, entry.2)

/-- The document that a call has written, with the time of that. -/
def written? : (Instant × Call) × Answer → Option (Instant × String)
  | ((time, .put name _ _), .ok _) => some (time, shownAs name)
  | _ => none

/-- Each put that succeeded has a later time than the one before. -/
def Forward (past : Record) : Prop :=
  (past.filterMap written?).Pairwise fun newer older => older.1 < newer.1

/-- When a document was last put with success. -/
def lastPut? (past : Record) (shown : String) : Option Instant :=
  ((past.filterMap written?).find? fun entry => entry.2 = shown).map (·.1)

/-! ## The order of the last puts -/

/-- What one more call makes of a list of documents with their times. -/
def promote (call : Instant × Call) (answer : Answer) (listing : List (Instant × String)) :
    List (Instant × String) :=
  match call.2, answer with
  | .put name _ _, .ok _ => (call.1, shownAs name) :: listing.filter fun e => e.2 ≠ shownAs name
  | .delete name, .ok _ => listing.filter fun e => e.2 ≠ shownAs name
  | _, _ => listing

/-- The documents with the times of their last puts, the latest first. -/
def recency : Record → List (Instant × String)
  | [] => []
  | (call, answer) :: past => promote call answer (recency past)

variable {past : Record} {time : Instant} {shown : String}

theorem promote_sublist (call : Instant × Call) (answer : Answer)
    (listing : List (Instant × String)) :
    (promote call answer listing).Sublist ((written? (call, answer)).toList ++ listing) := by
  obtain ⟨time, call⟩ := call
  cases answer with
  | error e => cases call <;> exact List.Sublist.refl _
  | ok value =>
    cases call with
    | get name => exact List.Sublist.refl _
    | put name content overwrite => exact List.filter_sublist.cons_cons _
    | delete name => exact List.filter_sublist

theorem recency_sublist (past : Record) : (recency past).Sublist (past.filterMap written?) := by
  induction past with
  | nil => exact List.Sublist.refl _
  | cons entry past ih =>
    obtain ⟨call, answer⟩ := entry
    have hs := (promote_sublist call answer (recency past)).trans (ih.append_left _)
    rw [List.filterMap_cons]
    cases hw : written? (call, answer) with
    | none =>
      rw [hw] at hs
      exact hs
    | some written =>
      rw [hw] at hs
      exact hs

theorem Forward.listing (h : Forward past) :
    (recency past).Pairwise fun newer older => older.1 < newer.1 :=
  h.sublist (recency_sublist past)

/-- Each document is in the list once. -/
theorem recency_once (past : Record) :
    (recency past).Pairwise fun newer older => newer.2 ≠ older.2 := by
  induction past with
  | nil => exact List.Pairwise.nil
  | cons entry past ih =>
    obtain ⟨⟨time, call⟩, answer⟩ := entry
    show (promote (time, call) answer (recency past)).Pairwise _
    cases answer with
    | error e => cases call <;> exact ih
    | ok value =>
      cases call with
      | get name => exact ih
      | put name content overwrite =>
        refine List.Pairwise.cons ?_ (ih.sublist List.filter_sublist)
        intro older ho
        have hne := (List.mem_filter.1 ho).2
        exact Ne.symm (by simpa using hne)
      | delete name => exact ih.sublist List.filter_sublist

/-- The time that a document is listed with is the time of its last put. -/
theorem lastPut?_of_mem_recency (h : (time, shown) ∈ recency past) :
    lastPut? past shown = some time := by
  induction past with
  | nil => cases h
  | cons entry past ih =>
    obtain ⟨⟨at', call⟩, answer⟩ := entry
    change (time, shown) ∈ promote (at', call) answer (recency past) at h
    unfold lastPut? at ih ⊢
    rw [List.filterMap_cons]
    cases answer with
    | error e => cases call <;> exact ih h
    | ok value =>
      cases call with
      | get name => exact ih h
      | delete name => exact ih (List.mem_filter.1 h).1
      | put name content overwrite =>
        show Option.map _ (List.find? _ ((at', shownAs name) :: _)) = _
        rcases List.mem_cons.1 h with he | hm
        · cases he
          rw [List.find?_cons_of_pos (by simp)]
          rfl
        · obtain ⟨hm, hne⟩ := List.mem_filter.1 hm
          have hs : shownAs name ≠ shown := Ne.symm (by simpa using hne)
          rw [List.find?_cons_of_neg (by simpa using hs)]
          exact ih hm

/-! ## The files and their times -/

/-- The files under the root, with their times, are the pairs of the list. -/
def Stamped (tree : Tree) (home : Location) (listing : List (Instant × String)) : Prop :=
  ∀ time shown, (time, shown) ∈ listing ↔ ∃ file,
    tree.get? (Utf8.encode (shown ++ extension) :: home) = some (.file file) ∧ file.modified = time

theorem Stamped.placed {listing : List (Instant × String)} {tree other : Tree} {file : File}
    {name : String} (h : Stamped tree home listing)
    (hv : ∀ loc, other.get? loc =
      if loc = fileName name :: home then some (.file file) else tree.get? loc) :
    Stamped other home
      ((file.modified, shownAs name) :: listing.filter fun e => e.2 ≠ shownAs name) := by
  intro time shown
  rw [hv, List.mem_cons, List.mem_filter, h]
  by_cases hs : shown = shownAs name
  · rw [if_pos (encode_eq_fileName_iff.2 hs)]
    simp [hs, eq_comm]
  · rw [if_neg (mt encode_eq_fileName_iff.1 hs)]
    simp [hs]

theorem Stamped.removed {listing : List (Instant × String)} {tree other : Tree} {name : String}
    (h : Stamped tree home listing)
    (hv : ∀ loc, other.get? loc =
      if loc = fileName name :: home then none else tree.get? loc) :
    Stamped other home (listing.filter fun e => e.2 ≠ shownAs name) := by
  intro time shown
  rw [hv, List.mem_filter, h]
  by_cases hs : shown = shownAs name
  · rw [if_pos (encode_eq_fileName_iff.2 hs)]
    simp [hs]
  · rw [if_neg (mt encode_eq_fileName_iff.1 hs)]
    simp [hs]

theorem Stamped.act {listing : List (Instant × String)} {texts : String → Option String}
    (hk : host.tree.Keeps store.root home texts) (h : Stamped host.tree home listing)
    (call : Call) :
    Stamped (store.act call host).2.tree home
      (promote (host.now, call) (store.act call host).1 listing) := by
  rcases (store.act_ends hk call).cases with ⟨e, _, ha, ht⟩ | ⟨_, ha, ht⟩
  · rw [ha, ht]
    cases call <;> exact h
  · rw [ha, ht]
    have hn := fun name => (hk.kept (key name)).ne_directory
    cases call with
    | get name => exact h
    | put name content overwrite =>
      exact h.placed (Tree.get?_place _ hk.opens.directory (hn name))
    | delete name => exact h.removed (Tree.get?_detach (hn name))

/-- The times of the calls make no difference to what they leave, but for the times of files. -/
theorem reached_untimed (h : Reached store.actAt store.root home host past) :
    Reached store.act store.root home host (untimed past) := by
  induction h with
  | start h => exact .start h
  | @call host past _ call ih =>
    have hu : Undisturbed store.root home host.tree { host with now := call.1 }.tree :=
      ⟨(mirrors_of_reached ih).keeps.opens, fun _ => rfl⟩
    exact .call (.meanwhile ih hu) call.2
  | meanwhile _ hu ih => exact .meanwhile ih hu

/-- **The list of the last puts has the files that are there, with the times that are on them.** -/
theorem stamped_of_reached (h : Reached store.actAt store.root home host past) :
    Stamped host.tree home (recency past) := by
  induction h with
  | start h =>
    intro time shown
    rw [h.empty]
    simp [recency]
  | @call host past hr call ih =>
    have hk : { host with now := call.1 }.tree.Keeps store.root home _ :=
      (mirrors_of_reached (reached_untimed hr)).keeps
    have hs : Stamped { host with now := call.1 }.tree home _ := ih
    exact hs.act hk call.2
  | meanwhile _ hu ih =>
    intro time shown
    rw [hu.entry]
    exact ih time shown

/-! ## Sorting -/

/-- Documents in the order of their times, no two of them of one time, are sorted. -/
theorem sort_eq {found ordered : List (Instant × String)} (hp : found.Perm ordered)
    (ho : ordered.Pairwise fun newer older => older.1 < newer.1) :
    Listing.sort found = ordered :=
  Listing.sort_eq_of_perm hp (ho.imp fun h => Listing.precedes_iff.2 (.inl h))

/-- What a listing finds under the root, in whatever order, is the list of the last puts. -/
theorem found_perm_recency (hm : store.Mirrors home host (untimed past))
    (hs : Stamped host.tree home (recency past)) :
    (((host.tree.children home).map (·.1)).filterMap (shown? host.tree home)).Perm
      (recency past) := by
  have hfound : (((host.tree.children home).map (·.1)).filterMap
      (shown? host.tree home)).Nodup := by
    apply List.pairwise_filterMap.2
    apply (Tree.children_nodup host.tree home).imp
    rintro n m hne ⟨time, shown⟩ hn other hm rfl
    obtain ⟨_, _, hn, _⟩ := shown?_eq_some_iff.1 hn
    obtain ⟨_, _, hm, _⟩ := shown?_eq_some_iff.1 hm
    exact hne ((listedName?_eq_some_iff.1 hn).1.trans (listedName?_eq_some_iff.1 hm).1.symm)
  have honce : (recency past).Nodup := by
    apply (recency_once past).imp
    intro a b hne he
    exact hne (congrArg Prod.snd he)
  refine (List.perm_ext_iff_of_nodup hfound honce).2 ?_
  rintro ⟨time, shown⟩
  rw [hs, List.mem_filterMap]
  constructor
  · rintro ⟨n, _, hn⟩
    obtain ⟨file, hg, hn, ht⟩ := shown?_eq_some_iff.1 hn
    obtain ⟨rfl, _⟩ := listedName?_eq_some_iff.1 hn
    exact ⟨file, hg, ht⟩
  · rintro ⟨file, hg, ht⟩
    refine ⟨Utf8.encode (shown ++ extension),
      List.mem_map.2 ⟨_, Tree.mem_children.2 hg, rfl⟩, shown?_eq_some_iff.2 ⟨file, hg, ?_, ht⟩⟩
    obtain ⟨name, _, _, hname, hn, _⟩ := hm.entry (by rw [hg]; simp)
    refine listedName?_eq_some_iff.2 ⟨rfl, ?_⟩
    rw [Utf8.encode_injective hn]
    exact key_visible hname

/-- **After a run of calls at later and later times, the listing is the list of the last puts.** -/
theorem list_eq_recency (h : Reached store.actAt store.root home host past) (hf : Forward past) :
    store.list host.tree =
      .ok ((recency past).map fun entry => ⟨entry.2, epochMillis entry.1⟩) := by
  have hm := mirrors_of_reached (reached_untimed h)
  rw [hm.list_eq, Listing.ofFound,
    sort_eq (found_perm_recency hm (stamped_of_reached h)) hf.listing]

/-! ## What a reader of listings sees -/

/-- A listing as the past gives it. -/
structure ListsByRecency (store : Documents) (host : Host) (past : Record)
    (entries : List ListEntry) : Prop where
  lists : store.list host.tree = .ok entries
  /-- The documents that are stored are listed, and no others. -/
  stored : ∀ shown, shown ∈ entries.map (·.name) ↔ bound (untimed past) (shown ++ extension) ≠ none
  once : (entries.map (·.name)).Nodup
  /-- The document that was put last with success comes first. -/
  newestFirst : entries.Pairwise fun a b => ∃ s t,
    lastPut? past a.name = some s ∧ lastPut? past b.name = some t ∧ t < s
  times : ∀ e ∈ entries, ∃ t, lastPut? past e.name = some t ∧ e.modified = epochMillis t

theorem mem_recency_iff_bound (h : Reached store.actAt store.root home host past)
    {shown : String} :
    shown ∈ (recency past).map (·.2) ↔ bound (untimed past) (shown ++ extension) ≠ none := by
  have hk := (mirrors_of_reached (reached_untimed h)).keeps.kept (shown ++ extension)
  rw [List.mem_map]
  constructor
  · rintro ⟨⟨time, _⟩, hm, rfl⟩ hb
    obtain ⟨file, hg, _⟩ := (stamped_of_reached h time _).1 hm
    rw [hb, hg] at hk
    cases hk
  · intro hb
    obtain ⟨text, ht⟩ := Option.ne_none_iff_exists'.1 hb
    rw [ht] at hk
    cases hg : host.tree.get? (Utf8.encode (shown ++ extension) :: home) with
    | none =>
      rw [hg] at hk
      cases hk
    | some node =>
      rw [hg] at hk
      cases hk with
      | @file _ file _ =>
        exact ⟨(file.modified, shown), (stamped_of_reached h _ _).2 ⟨file, hg, rfl⟩, rfl⟩

theorem listsByRecency_of_reached (h : Reached store.actAt store.root home host past)
    (hf : Forward past) :
    store.ListsByRecency host past
      ((recency past).map fun entry => ⟨entry.2, epochMillis entry.1⟩) := by
  constructor
  case lists => exact list_eq_recency h hf
  case stored =>
    intro shown
    rw [List.map_map]
    exact mem_recency_iff_bound h
  case once =>
    rw [List.map_map]
    exact List.pairwise_map.2 (recency_once past)
  case newestFirst =>
    apply List.pairwise_map.2
    apply hf.listing.imp_of_mem
    intro a b ha hb hlt
    exact ⟨a.1, b.1, lastPut?_of_mem_recency ha, lastPut?_of_mem_recency hb, hlt⟩
  case times =>
    intro e he
    obtain ⟨entry, hm, rfl⟩ := List.mem_map.1 he
    exact ⟨entry.1, lastPut?_of_mem_recency hm, rfl⟩

theorem promote_others (call : Instant × Call) (answer : Answer)
    (listing : List (Instant × String)) :
    (promote call answer listing).filter (fun e => e.2 ≠ shownAs call.2.name) =
      listing.filter fun e => e.2 ≠ shownAs call.2.name := by
  obtain ⟨time, call⟩ := call
  cases answer with
  | error e => cases call <;> rfl
  | ok value =>
    cases call with
    | get name => rfl
    | put name content overwrite =>
      show List.filter _ ((time, shownAs name) :: List.filter _ listing) = _
      rw [List.filter_cons_of_neg (by simp [Call.name]), List.filter_filter]
      exact List.filter_congr fun e _ => Bool.and_self _
    | delete name =>
      show List.filter _ (List.filter _ listing) = _
      rw [List.filter_filter]
      exact List.filter_congr fun e _ => Bool.and_self _

theorem promote_unchanged {call : Instant × Call} {answer : Answer}
    (h : (∃ e, answer = .error e) ∨ ∃ name, call.2 = .get name)
    (listing : List (Instant × String)) : promote call answer listing = listing := by
  obtain ⟨time, call⟩ := call
  rcases h with ⟨e, rfl⟩ | ⟨name, hg⟩
  · cases call <;> rfl
  · cases hg
    rfl

/-- What a call that is made next does to a listing that goes by the past. -/
structure MovesOwn (store : Documents) (host : Host) (past : Record) (call : Instant × Call)
    (entries after : List ListEntry) : Prop where
  lists : store.ListsByRecency (store.actAt call host).2
    ((call, (store.actAt call host).1) :: past) after
  /-- No document but its own is moved. -/
  others : (after.filter fun e => e.name ≠ shownAs call.2.name) =
    entries.filter fun e => e.name ≠ shownAs call.2.name
  /-- A call that is refused, or a get, leaves the listing as it is. -/
  unmoved : (∃ e, (store.actAt call host).1 = .error e) ∨ (∃ name, call.2 = .get name) →
    after = entries

/-- The listing goes by the past, and keeps to that with every call that may be made next. -/
def GoesByRecency (store : Documents) (host : Host) (past : Record) : Prop :=
  ∃ entries, store.ListsByRecency host past entries ∧
    ∀ call, Forward ((call, (store.actAt call host).1) :: past) →
      ∃ after, store.MovesOwn host past call entries after

/-- **A listing goes by the last puts that succeeded, the latest first**, and each call moves no
document but its own. -/
theorem lists_by_recency (h : Reached store.actAt store.root home host past) (hf : Forward past) :
    store.GoesByRecency host past := by
  refine ⟨_, listsByRecency_of_reached h hf, fun call hf' => ?_⟩
  refine ⟨_, listsByRecency_of_reached (.call h call) hf', ?_, ?_⟩
  · have ho := promote_others call (store.actAt call host).1 (recency past)
    rw [List.filter_map, List.filter_map]
    exact congrArg (List.map _) ho
  · intro hu
    show List.map _ (promote call _ (recency past)) = _
    rw [promote_unchanged hu]

/-- The host after calls that are listed the newest first, with the record of them. -/
def runAt (store : Documents) (host : Host) : List (Instant × Call) → Host × Record
  | [] => (host, [])
  | call :: earlier =>
    let (host, past) := store.runAt host earlier
    ((store.actAt call host).2, (call, (store.actAt call host).1) :: past)

theorem reached_runAt (h : host.tree.OpensEmpty store.root home) (calls : List (Instant × Call)) :
    Reached store.actAt store.root home (store.runAt host calls).1 (store.runAt host calls).2 := by
  induction calls with
  | nil => exact .start h
  | cons call earlier ih => exact .call ih call

/-- Three documents, of which the first is written again under its other name and the last is
removed, with a put in between that is refused. -/
def rewritten : Host × Record :=
  runAt ⟨.winding 0⟩ .fresh
    [(0, .delete "c"), (4000000, .put "a.txt" "z" true), (9000000, .put "b" "w" false),
      (3000000, .put "c" "x" false), (2000000, .put "b" "y" false), (1000000, .put "a" "x" false)]

theorem lists_by_recency_rewritten :
    Reached (actAt ⟨.winding 0⟩) (.winding 0) [[0x64]] rewritten.1 rewritten.2 ∧
      Forward rewritten.2 ∧ recency rewritten.2 = [(4000000, "a"), (2000000, "b")] ∧
      GoesByRecency ⟨.winding 0⟩ rewritten.1 rewritten.2 := by
  have hr : Reached (actAt ⟨.winding 0⟩) (.winding 0) [[0x64]] rewritten.1 rewritten.2 :=
    reached_runAt (Host.opensEmpty_fresh (by decide)) _
  have hf : Forward rewritten.2 := by
    unfold Forward
    decide +kernel
  exact ⟨hr, hf, by decide +kernel, lists_by_recency hr hf⟩

end LineStore.Documents
