import LineStore.Proofs.Documents.Map
import LineStore.Proofs.Files.OneEntry
import LineStore.Proofs.Settings.Map
import LineStore.Service

/-!
# What a put, a save and a removal change

Each of the three changes the one entry that its arguments name, directly under its root, and
nothing else in the tree (`changes_one_entry`). Two things come together here. The names that are
accepted hold no separator and start with no dot, and neither do the file names made of them, so
they stand for a single visible step; and the operations behind act on that step as it stands, a
link included.
-/

namespace LineStore

variable {host : Host} {tree after : Tree} {root : Path} {home : Location} {new? : Option Node}

theorem Tree.ChangedAt.of_text {text : String} (ho : tree.Opens root home)
    (hne : text.toList ≠ []) (hs : '/' ∉ text.toList) (hd : text.toList.head? ≠ some '.')
    (he : after.get? (Utf8.encode text :: home) = new?)
    (hv : ∀ loc, loc ≠ Utf8.encode text :: home → after.get? loc = tree.get? loc) :
    tree.ChangedAt root home (Utf8.encode text) new? after := by
  apply ChangedAt.of_elsewhere ho
  · show UInt8.ofNat '/'.toNat ∉ Utf8.encode text
    rw [Utf8.ascii_mem_encode (by decide)]
    exact hs
  · intro hn
    apply hne
    rw [Utf8.encode_injective (hn.trans rfl : Utf8.encode text = Utf8.encode "")]
    rfl
  · intro hh
    exact hd (Utf8.head?_of_ascii_encode (a := '.') (by decide) hh)
  · exact he
  · exact hv

/-- What a write to a child has changed when it succeeds. -/
theorem Host.changedAt_of_writeAtomic {text : String} {content : Bytes} {mode : WriteMode}
    (hs : host.tree.Spares root host.hidden) (hne : text.toList ≠ []) (hsep : '/' ∉ text.toList)
    (hd : text.toList.head? ≠ some '.')
    (h : (host.writeAtomic (root.child (Utf8.encode text)) content mode).1 = .ok ()) :
    ∃ home, host.tree.ChangedAt root home (Utf8.encode text)
      (some (.file ⟨host.tree.freshId, content, host.now⟩))
      (host.writeAtomic (root.child (Utf8.encode text)) content mode).2.tree := by
  obtain ⟨home, ho, hx, ht⟩ := AtomicWrite.place_of_run_ok
    (w := host.prepare (root.child (Utf8.encode text)) content mode) rfl
    root.alike_trim (Path.sibling_child ..) hs (host.hidden_ne_encode hd) h
  have hplace := Tree.get?_place (.file ⟨host.tree.freshId, content, host.now⟩) ho.directory
    (AtomicWrite.ne_directory_of_hindrance? hx)
  have hafter : (host.writeAtomic (root.child (Utf8.encode text)) content mode).2.tree =
      host.tree.place home (Utf8.encode text) (.file ⟨host.tree.freshId, content, host.now⟩) := ht
  refine ⟨home, Tree.ChangedAt.of_text ho hne hsep hd ?_ ?_⟩
  · rw [hafter, hplace, if_pos rfl]
  · intro loc hl
    rw [hafter, hplace, if_neg hl]

namespace Documents

variable {store : Documents} {name content text : String} {overwrite : Bool}

/-- A put that succeeds has written its content under its name. -/
theorem write_of_put_ok (h : (store.put name content overwrite host).1 = .ok text) :
    Identifier.isDocumentName name = true ∧ text = content ∧
      (host.writeAtomic (store.root.child (fileName name)) (Utf8.encode content)
        (if overwrite then .replace else .createNew)).1 = .ok () ∧
      (store.put name content overwrite host).2 =
        (host.writeAtomic (store.root.child (fileName name)) (Utf8.encode content)
          (if overwrite then .replace else .createNew)).2 := by
  by_cases hn : Identifier.isDocumentName name = true
  case neg =>
    rw [put, path_invalid hn] at h
    cases h
  case pos =>
    rw [put, path_eq hn] at h ⊢
    dsimp only at h ⊢
    split at h
    · cases h
    · cases h
    · generalize hw : host.writeAtomic _ _ _ = result at h ⊢
      obtain ⟨outcome, host'⟩ := result
      cases outcome with
      | ok _ => cases h; exact ⟨hn, rfl, rfl, rfl⟩
      | error e => cases e <;> cases h

theorem unlink_of_delete_ok (h : (store.delete name host).1 = .ok ()) :
    Identifier.isDocumentName name = true ∧
      host.tree.unlink (store.root.child (fileName name)) =
        .ok (store.delete name host).2.tree := by
  by_cases hn : Identifier.isDocumentName name = true
  case neg =>
    rw [delete, path_invalid hn] at h
    cases h
  case pos =>
    refine ⟨hn, ?_⟩
    rw [delete, path_eq hn] at h ⊢
    dsimp only at h ⊢
    split at h
    · rename_i hu
      exact hu
    · cases h
    · cases h

theorem slash_not_mem_key (h : Identifier.isDocumentName name = true) :
    '/' ∉ (key name).toList := by
  have hname : '/' ∉ name.toList := by
    intro hm
    exact (Identifier.isDocumentName_iff.1 h).2.2.2 _ hm (by decide)
  rcases key_cases name with ⟨-, hk⟩ | ⟨-, hk⟩
  · rw [hk]
    exact hname
  · rw [hk, String.toList_append, List.mem_append, not_or]
    exact ⟨hname, by decide⟩

theorem key_ne_nil (h : Identifier.isDocumentName name = true) : (key name).toList ≠ [] := by
  have hne := (Identifier.isDocumentName_iff.1 h).1
  rcases key_cases name with ⟨-, hk⟩ | ⟨-, hk⟩
  · rw [hk]
    exact hne
  · rw [hk, String.toList_append]
    simp [hne]

end Documents

namespace Settings

variable {store : Settings} {key level content client : String}

/-- A save that succeeds has passed every check and written its content. -/
theorem write_of_keep_ok (h : (store.keep key level content client host).1 = .ok ()) :
    Identifier.isKey key = true ∧ Identifier.isKey level = true ∧
      (host.writeAtomic (store.root.child (fileName key level)) (Utf8.encode content)
        .replace).1 = .ok () ∧
      (store.keep key level content client host).2 =
        (host.writeAtomic (store.root.child (fileName key level)) (Utf8.encode content)
          .replace).2 := by
  cases hk : Identifier.isKey key with
  | false =>
    rw [keep, path, hk] at h
    cases h
  | true =>
    cases hl : Identifier.isKey level with
    | false =>
      rw [keep, path, hk, hl] at h
      cases h
    | true =>
      rw [keep, path_eq hk hl] at h ⊢
      dsimp only at h ⊢
      split at h
      · cases h
      · rename_i hc
        rw [if_neg hc]
        split at h
        · cases h
        · generalize hw : host.writeAtomic _ _ _ = result at h ⊢
          obtain ⟨outcome, host'⟩ := result
          cases outcome with
          | ok _ => exact ⟨rfl, rfl, rfl, rfl⟩
          | error e => cases h

theorem slash_not_mem_fileText (hk : Identifier.isKey key = true)
    (hl : Identifier.isKey level = true) : '/' ∉ (fileText key level).toList := by
  have hno : ∀ {s : String}, Identifier.isKey s = true → '/' ∉ s.toList := by
    intro s hs hm
    have := (Identifier.isKey_iff.1 hs).2.2 _ hm
    cases this
  unfold fileText
  simp [hno hk, hno hl]

theorem fileText_ne_nil (key level : String) : (fileText key level).toList ≠ [] := by
  unfold fileText
  simp

end Settings

/-! ## The three together -/

/-- **A put, a removal and a save that succeed change one entry each, and nothing else.** The entry
is the one directly under the root that the name, or the level and the key, stand for. -/
theorem Stores.changes_one_entry {σ : Type} (stores : Stores) (sink : Sink σ) (state : σ)
    (host : Host) :
    (∀ name content text overwrite, host.tree.Spares stores.documents.root host.hidden →
      (stores.documents.put name content overwrite host).1 = .ok text →
      ∃ home, host.tree.ChangedAt stores.documents.root home (Documents.fileName name)
        (some (.file ⟨host.tree.freshId, Utf8.encode content, host.now⟩))
        (stores.documents.put name content overwrite host).2.tree) ∧
    (∀ name, (stores.documents.delete name host).1 = .ok () →
      ∃ home, host.tree.ChangedAt stores.documents.root home (Documents.fileName name) none
        (stores.documents.delete name host).2.tree) ∧
    (∀ key level content client, host.tree.Spares stores.settings.root host.hidden →
      (stores.settings.save sink key level content client host state).1 = .ok () →
      ∃ home, host.tree.ChangedAt stores.settings.root home (Settings.fileName key level)
        (some (.file ⟨host.tree.freshId, Utf8.encode content, host.now⟩))
        (stores.settings.save sink key level content client host state).2.1.tree) := by
  refine ⟨?put, ?delete, ?save⟩
  case put =>
    intro name content text overwrite hs h
    obtain ⟨hn, -, hw, hafter⟩ := Documents.write_of_put_ok h
    rw [hafter]
    exact Host.changedAt_of_writeAtomic hs (Documents.key_ne_nil hn)
      (Documents.slash_not_mem_key hn) (Documents.key_visible hn) hw
  case delete =>
    intro name h
    obtain ⟨hn, hu⟩ := Documents.unlink_of_delete_ok h
    obtain ⟨home, node, ho, hg, hnode, hafter⟩ := Tree.detach_of_unlink_ok hu
    have hfile : host.tree.get? (Documents.fileName name :: home) ≠ some .directory := by
      rw [hg]
      simpa using hnode
    have hv := Tree.get?_detach hfile
    refine ⟨home, Tree.ChangedAt.of_text ho (Documents.key_ne_nil hn)
      (Documents.slash_not_mem_key hn) (Documents.key_visible hn) ?_ ?_⟩
    · rw [hafter]
      exact (hv _).trans (if_pos rfl)
    · intro loc hl
      rw [hafter]
      exact (hv loc).trans (if_neg hl)
  case save =>
    intro key level content client hs h
    obtain ⟨ha, hh⟩ := Settings.save_eq_keep stores.settings sink key level content client host state
    rw [ha] at h
    obtain ⟨hk, hl, hw, hafter⟩ := Settings.write_of_keep_ok h
    rw [hh, hafter]
    exact Host.changedAt_of_writeAtomic hs (Settings.fileText_ne_nil key level)
      (Settings.slash_not_mem_fileText hk hl) (Settings.fileText_visible hl key) hw

/-- A root in which a document and a setting are links, both to a file beside them. -/
def linkedHost : Host :=
  ⟨(((Tree.empty.attach [] [0x64] .directory).attach [[0x64]] [0x62] (.file ⟨0, [0x6F], 0⟩)).attach
      [[0x64]] (Documents.fileName "a") (.link [0x62])).attach
      [[0x64]] (Settings.fileName "k" "u") (.link [0x62]), 0, 1, 0, fun _ => 0⟩

theorem spares_linkedHost : linkedHost.tree.Spares (.winding 0) linkedHost.hidden :=
  .of_names (by decide +kernel)

/-- There the put and the save replace the links, and the removal removes one. -/
theorem Stores.changes_one_entry_linked :
    let stores : Stores := ⟨⟨.winding 0⟩, ⟨.winding 0⟩, ⟨.winding 0⟩⟩
    linkedHost.tree.Spares (.winding 0) linkedHost.hidden ∧
      (stores.documents.put "a" "x" true linkedHost).1 = .ok "x" ∧
      (∃ home, linkedHost.tree.ChangedAt (.winding 0) home (Documents.fileName "a")
        (some (.file ⟨1, [0x78], 0⟩)) (stores.documents.put "a" "x" true linkedHost).2.tree) ∧
      (stores.documents.delete "a" linkedHost).1 = .ok () ∧
      (∃ home, linkedHost.tree.ChangedAt (.winding 0) home (Documents.fileName "a") none
        (stores.documents.delete "a" linkedHost).2.tree) ∧
      (stores.settings.save Ring.sink "k" "u" "1" "m" linkedHost (.ofCapacity 1)).1 = .ok () ∧
      ∃ home, linkedHost.tree.ChangedAt (.winding 0) home (Settings.fileName "k" "u")
        (some (.file ⟨1, [0x31], 0⟩))
        (stores.settings.save Ring.sink "k" "u" "1" "m" linkedHost (.ofCapacity 1)).2.1.tree := by
  intro stores
  have hput : (stores.documents.put "a" "x" true linkedHost).1 = .ok "x" := rfl
  have hdelete : (stores.documents.delete "a" linkedHost).1 = .ok () := rfl
  have hsave : (stores.settings.save Ring.sink "k" "u" "1" "m" linkedHost (.ofCapacity 1)).1 =
      .ok () := rfl
  obtain ⟨put, delete, save⟩ := changes_one_entry stores Ring.sink (.ofCapacity 1) linkedHost
  exact ⟨spares_linkedHost, hput, put _ _ _ _ spares_linkedHost hput, hdelete, delete _ hdelete,
    hsave, save _ _ _ _ spares_linkedHost hsave⟩

end LineStore
