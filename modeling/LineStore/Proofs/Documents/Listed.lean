import LineStore.Proofs.Documents.Map

/-!
# What a listed name leads to

A listing takes the extension off a file's name, and a call puts it back on, but only where it is
not there. So the two undo each other unless a name still carries the extension **after** it was
taken off once: the file `a.txt.txt` is shown as `a.txt`, and that is a name of the file `a.txt`.
`addresses_iff_of_listed` is the exact condition.
-/

namespace LineStore

/-! ## Collecting in a listing -/

/-- Collecting fails where a single look fails; otherwise it leaves out what shows nothing. -/
theorem filterMapM_eq_ok {α β ε : Type} {f : α → Except ε (Option β)} {g : α → Option β} :
    ∀ {xs : List α}, (∀ x ∈ xs, f x = .ok (g x)) → xs.filterMapM f = .ok (xs.filterMap g) := by
  intro xs
  induction xs with
  | nil =>
    intro _
    rfl
  | cons x rest ih =>
    intro h
    have hx := h x List.mem_cons_self
    have hr := ih fun y hy => h y (List.mem_cons_of_mem _ hy)
    rw [List.filterMapM_cons, hx, hr, List.filterMap_cons]
    cases g x <;> rfl

theorem Listing.mem_ofFound {found : List (Instant × String)} {e : ListEntry} :
    e ∈ ofFound found ↔ ∃ time name, (time, name) ∈ found ∧ e = ⟨name, epochMillis time⟩ := by
  rw [ofFound, List.mem_map]
  constructor
  · rintro ⟨⟨time, name⟩, hm, rfl⟩
    exact ⟨time, name, List.mem_mergeSort.1 hm, rfl⟩
  · rintro ⟨time, name, hm, rfl⟩
    exact ⟨(time, name), List.mem_mergeSort.2 hm, rfl⟩

namespace Documents

variable {store : Documents} {host : Host} {home : Location} {past : History}
  {n : Name} {shown : String}

/-- The file that a name is shown for is the one with the extension on top of it. -/
theorem listedName?_eq_some_iff :
    listedName? n = some shown ↔
      n = Utf8.encode (shown ++ extension) ∧ (shown ++ extension).toList.head? ≠ some '.' := by
  unfold listedName?
  rw [Option.bind_eq_bind, Option.bind_eq_some_iff]
  constructor
  · rintro ⟨name, hd, hs⟩
    split at hs
    · cases hs
    · rename_i hh
      obtain ⟨stem, hst, rfl⟩ := Option.map_eq_some_iff.1 hs
      have hn := stem?_eq_some_iff_carried.1 hst
      rw [← hn]
      exact ⟨Utf8.decode?_eq_some_iff.1 hd, hh⟩
  · rintro ⟨rfl, hh⟩
    refine ⟨shown ++ extension, Utf8.decode?_encode _, ?_⟩
    have hst : Text.stem? extension.toList (shown ++ extension).toList = some shown.toList :=
      stem?_eq_some_iff_carried.2 (by rw [String.ofList_toList])
    rw [if_neg hh, hst, Option.map_some, String.ofList_toList]

/-! ## Listing a root that mirrors its past -/

theorem Mirrors.entry (h : store.Mirrors home host past)
    (hn : host.tree.get? (n :: home) ≠ none) :
    ∃ name text file, Identifier.isDocumentName name = true ∧ n = fileName name ∧
      store.root.refusal? n = none ∧ bound past (key name) = some text ∧
      host.tree.get? (n :: home) = some (.file file) ∧ file.bytes = Utf8.encode text := by
  obtain ⟨k, text, file, rfl, ht, hg, hb⟩ := h.keeps.entry hn
  obtain ⟨name, hname, rfl, hf⟩ := h.named k (by rw [ht]; simp)
  exact ⟨name, text, file, hname, rfl, Option.map_eq_none_iff.1 hf, ht, hg, hb⟩

/-- What a listing shows of an entry that is a file. -/
def shown? (tree : Tree) (home : Location) (n : Name) : Option (Instant × String) :=
  match tree.get? (n :: home) with
  | some (.file file) => (listedName? n).map fun name => (file.modified, name)
  | _ => none

theorem shown?_eq_some_iff {tree : Tree} {time : Instant} :
    shown? tree home n = some (time, shown) ↔
      ∃ file, tree.get? (n :: home) = some (.file file) ∧ listedName? n = some shown ∧
        file.modified = time := by
  unfold shown?
  constructor
  · intro h
    split at h
    · rename_i file hg
      obtain ⟨name, hn, he⟩ := Option.map_eq_some_iff.1 h
      cases he
      exact ⟨file, hg, hn, rfl⟩
    · cases h
  · rintro ⟨file, hg, hn, rfl⟩
    rw [hg, hn]
    rfl

theorem Mirrors.listed?_eq (h : store.Mirrors home host past)
    (hn : host.tree.get? (n :: home) ≠ none) :
    store.listed? host.tree n = .ok (shown? host.tree home n) := by
  obtain ⟨_, _, file, _, _, hr, _, hg, _⟩ := h.entry hn
  unfold listed? shown?
  rw [hg]
  cases listedName? n with
  | none => rfl
  | some name =>
    dsimp only
    rw [h.keeps.opens.follow_child (by rw [hg]; simp), hr, hg]
    rfl

/-- **A listing shows the files that have a name to be shown, and nothing else.** -/
theorem Mirrors.list_eq (h : store.Mirrors home host past) :
    store.list host.tree = .ok (Listing.ofFound
      (((host.tree.children home).map (·.1)).filterMap (shown? host.tree home))) := by
  have hl : ∀ n ∈ (host.tree.children home).map (·.1),
      store.listed? host.tree n = .ok (shown? host.tree home n) := by
    intro n hn
    obtain ⟨⟨_, node⟩, hm, rfl⟩ := List.mem_map.1 hn
    refine h.listed?_eq ?_
    rw [Tree.mem_children.1 hm]
    exact Option.some_ne_none node
  rw [Documents.list, h.keeps.opens.readDirectory h.keeps.sound]
  dsimp only
  rw [filterMapM_eq_ok hl]

theorem Mirrors.mem_list_iff (h : store.Mirrors home host past) {entries : List ListEntry}
    (hl : store.list host.tree = .ok entries) {e : ListEntry} :
    e ∈ entries ↔
      ∃ file, host.tree.get? (Utf8.encode (e.name ++ extension) :: home) = some (.file file) ∧
        e.modified = epochMillis file.modified := by
  rw [h.list_eq] at hl
  cases hl
  rw [Listing.mem_ofFound]
  constructor
  · rintro ⟨time, name, hm, rfl⟩
    obtain ⟨n, _, hs⟩ := List.mem_filterMap.1 hm
    obtain ⟨file, hg, hn, rfl⟩ := shown?_eq_some_iff.1 hs
    obtain ⟨rfl, _⟩ := listedName?_eq_some_iff.1 hn
    exact ⟨file, hg, rfl⟩
  · rintro ⟨file, hg, he⟩
    obtain ⟨name, _, _, hname, hn, _⟩ := h.entry (by rw [hg]; simp)
    have hk : e.name ++ extension = key name := Utf8.encode_injective hn
    have hs : listedName? (Utf8.encode (e.name ++ extension)) = some e.name :=
      listedName?_eq_some_iff.2 ⟨rfl, hk ▸ key_visible hname⟩
    refine ⟨file.modified, e.name,
      List.mem_filterMap.2 ⟨Utf8.encode (e.name ++ extension), ?_, ?_⟩, ?_⟩
    · exact List.mem_map.2 ⟨_, Tree.mem_children.2 hg, rfl⟩
    · exact shown?_eq_some_iff.2 ⟨file, hg, hs, rfl⟩
    · rw [← he]

/-! ## Calls by a listed name -/

/-- The file that a name is shown for is the one that is read and removed by it. -/
def Addresses (store : Documents) (home : Location) (host : Host) (shown : String) : Prop :=
  ∃ file text, host.tree.get? (Utf8.encode (shown ++ extension) :: home) = some (.file file) ∧
    file.bytes = Utf8.encode text ∧ store.get shown host.tree = .ok text ∧
    (store.delete shown host).1 = .ok () ∧
    ∀ loc, (store.delete shown host).2.tree.get? loc =
      if loc = Utf8.encode (shown ++ extension) :: home then none else host.tree.get? loc

theorem key_ne_of_carries (h : Carries shown) : key shown ≠ shown ++ extension := by
  rw [key_of_carries h]
  intro he
  have hl := congrArg (fun s => s.toList.length) he
  simp [extension] at hl

theorem Mirrors.addresses (h : store.Mirrors home host past)
    (hg : host.tree.get? (Utf8.encode (shown ++ extension) :: home) ≠ none)
    (hs : ¬ Carries shown) : store.Addresses home host shown := by
  obtain ⟨name, text, file, hname, hn, hr, ht, hfile, hb⟩ := h.entry hg
  have hk : key shown = shown ++ extension := key_of_not_carries hs
  have hd : Identifier.isDocumentName shown = true :=
    isDocumentName_of_key hname (Utf8.encode_injective hn).symm
  have hf : store.fileRefusal? shown = none := by
    rw [fileRefusal?, fileName_eq, hk, hr]
    rfl
  have ht' : bound past (key shown) = some text := by
    rw [hk, Utf8.encode_injective hn]
    exact ht
  have hget : store.refusal? host (bound past) (.get shown) = none := by
    rw [refusal?, Call.name, if_pos hd, cause?, hf, ht']
    rfl
  have hdel : store.refusal? host (bound past) (.delete shown) = none := by
    rw [refusal?, Call.name, if_pos hd, cause?, hf, ht']
    rfl
  refine ⟨file, text, hfile, hb, ?_⟩
  have hget' := get_eq h.keeps shown
  rw [hget, ht'] at hget'
  have hdel' := delete_ends h.keeps shown
  rw [hdel] at hdel'
  obtain ⟨hok, htree⟩ := hdel'.done
  refine ⟨?_, hok, fun loc => ?_⟩
  · cases ha : store.get shown host.tree with
    | error e =>
      rw [ha] at hget'
      cases hget'
    | ok _ =>
      rw [ha] at hget'
      cases hget'
      rfl
  · rw [htree, ← hk]
    exact Tree.get?_detach (h.keeps.kept (key shown)).ne_directory loc

/-- What an entry of a listing says of the root, and what it is good for. -/
structure Points (store : Documents) (home : Location) (host : Host) (e : ListEntry) : Prop where
  /-- It shows the time of a file whose name is the entry's with the extension on top. -/
  file : ∃ file,
    host.tree.get? (Utf8.encode (e.name ++ extension) :: home) = some (.file file) ∧
      e.modified = epochMillis file.modified
  /-- No other file is shown by that name. -/
  only : ∀ n, listedName? n = some e.name → n = Utf8.encode (e.name ++ extension)
  /-- Calls by the entry's name are about that file if it does not end in the extension. -/
  addresses : store.Addresses home host e.name ↔ ¬ Carries e.name

/-- **A listed name leads to the file it was listed for, unless it still carries the extension.** -/
theorem addresses_iff_of_listed (h : Reached store.act store.root home host past) :
    ∃ entries, store.list host.tree = .ok entries ∧ ∀ e ∈ entries, store.Points home host e := by
  have hm := mirrors_of_reached h
  refine ⟨_, hm.list_eq, fun e he => ?_⟩
  obtain ⟨file, hg, ht⟩ := (hm.mem_list_iff hm.list_eq).1 he
  refine ⟨⟨file, hg, ht⟩, fun n hn => (listedName?_eq_some_iff.1 hn).1, ?_, ?_⟩
  -- A name that carries the extension is the key of another file; removing that leaves this one.
  · rintro ⟨_, _, _, _, _, _, hgone⟩ hc
    have hl : Utf8.encode (e.name ++ extension) :: home ≠ fileName e.name :: home := fun hl =>
      key_ne_of_carries hc (Utf8.encode_injective (List.cons.inj hl).1).symm
    have hstays : (store.delete e.name host).2.tree.get? _ = host.tree.get? _ :=
      store.get?_act hm.keeps (.delete e.name) hl
    have hgone' := hgone (Utf8.encode (e.name ++ extension) :: home)
    rw [if_pos rfl] at hgone'
    rw [hg] at hstays
    cases hgone'.symm.trans hstays
  · intro hc
    exact hm.addresses (by rw [hg]; simp) hc

/-- A host on which one document was put, under a name that ends in the extension twice. -/
def afterDoubled : Host := (act ⟨.winding 0⟩ (.put "a.txt.txt" "x" false) .fresh).2

theorem reached_afterDoubled :
    Reached (act ⟨.winding 0⟩) (.winding 0) [[0x64]] afterDoubled
      [(.put "a.txt.txt" "x" false, .ok (some "x"))] :=
  .call (.start (Host.opensEmpty_fresh (k := 0) (by decide))) (Call.put "a.txt.txt" "x" false)

theorem list_afterDoubled : list ⟨.winding 0⟩ afterDoubled.tree = .ok [⟨"a.txt", 0⟩] := by
  have hl : list ⟨.winding 0⟩ afterDoubled.tree = .ok (Listing.ofFound [(0, "a.txt")]) := rfl
  rw [hl, Listing.ofFound, Listing.sort, List.mergeSort_singleton]
  rfl

theorem addresses_iff_of_listed_doubled :
    Reached (act ⟨.winding 0⟩) (.winding 0) [[0x64]] afterDoubled
        [(.put "a.txt.txt" "x" false, .ok (some "x"))] ∧
      list ⟨.winding 0⟩ afterDoubled.tree = .ok [⟨"a.txt", 0⟩] ∧
      Points ⟨.winding 0⟩ [[0x64]] afterDoubled ⟨"a.txt", 0⟩ := by
  obtain ⟨entries, hl, hall⟩ := addresses_iff_of_listed reached_afterDoubled
  cases hl.symm.trans list_afterDoubled
  exact ⟨reached_afterDoubled, list_afterDoubled, hall _ List.mem_cons_self⟩

/-- There the listing shows a name under which nothing is found. -/
theorem get_listed_doubled :
    Reached (act ⟨.winding 0⟩) (.winding 0) [[0x64]] afterDoubled
        [(.put "a.txt.txt" "x" false, .ok (some "x"))] ∧
      list ⟨.winding 0⟩ afterDoubled.tree = .ok [⟨"a.txt", 0⟩] ∧
      get ⟨.winding 0⟩ "a.txt" afterDoubled.tree = .error (.notFound "a.txt") :=
  ⟨reached_afterDoubled, list_afterDoubled, rfl⟩

end Documents
end LineStore
