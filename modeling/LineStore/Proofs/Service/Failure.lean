import LineStore.Proofs.Documents.Map
import LineStore.Proofs.Files.Modified
import LineStore.Proofs.Settings.Map
import LineStore.Service

/-!
# Requests that fail

A put and a save have come a long way when they fail late: names were checked, a look was taken, a
hidden file was made and filled. `undone_of_failure` says what is left of it. The stages before the
write touch nothing, and the write itself gives back the tree that it found when it fails
(`Host.tree_of_writeAtomic_error`), whatever stood in its way. One trace remains: the directory in
which the hidden file came and went has been modified at the time of the call. A save that fails has
not come to its announcement. A removal is one operation, which is done or not; and no other command
writes at all.
-/

namespace LineStore

variable {host after : Host} {root : Path} {e : StoreError}

/-! ## The two stores -/

/-- What a refusal can leave of a host: the host as it was, or what a write under the root has left
that has failed. -/
inductive Host.Refused (root : Path) (host : Host) : Host → Prop
  | early : Refused root host host
  | late {name : Name} {content : Bytes} {mode : WriteMode} {e : FileError}
      (hne : host.hidden ≠ name)
      (he : (host.writeAtomic (root.child name) content mode).1 = .error e) :
      Refused root host (host.writeAtomic (root.child name) content mode).2

namespace Host.Refused

theorem tree (hs : host.tree.Spares root host.hidden) (h : host.Refused root after) :
    after.tree = host.tree := by
  cases h with
  | early => rfl
  | late hne he => exact tree_of_writeAtomic_error hs hne he

theorem modified {dir : Location} (hs : host.tree.Spares root host.hidden)
    (h : host.Refused root after) (hd : ¬ (after.writes ≠ host.writes ∧ host.Hides root dir)) :
    after.modified dir = host.modified dir := by
  cases h with
  | early => rfl
  | late hne he =>
    refine modified_of_writeAtomic_error hs hne he fun hh => hd ⟨?_, hh⟩
    show host.writes + 1 ≠ host.writes
    simp

theorem modified_home {home : Location} (hs : host.tree.Spares root host.hidden)
    (h : host.Refused root after) (hw : after.writes ≠ host.writes) (hh : host.Hides root home) :
    after.modified home = host.now := by
  cases h with
  | early => exact absurd rfl hw
  | late => exact modified_home_of_writeAtomic hs hh

end Host.Refused

namespace Documents

variable {store : Documents} {name content : String} {overwrite : Bool}

theorem refused_of_put_error (he : (store.put name content overwrite host).1 = .error e) :
    host.Refused store.root (store.put name content overwrite host).2 := by
  by_cases hn : Identifier.isDocumentName name = true
  case neg =>
    rw [put, path_invalid hn]
    exact .early
  case pos =>
    rw [put, path_eq hn] at he ⊢
    dsimp only at he ⊢
    split at he
    · exact .early
    · exact .early
    · generalize hr : host.writeAtomic _ _ _ = result at he ⊢
      obtain ⟨outcome, after⟩ := result
      cases outcome with
      | ok _ => cases he
      | error failure =>
        have hl : host.Refused store.root (host.writeAtomic _ _ _).2 :=
          .late (host.hidden_ne_encode (key_visible hn)) (congrArg Prod.fst hr)
        rw [← fileName_eq, hr] at hl
        cases failure <;> exact hl

theorem tree_of_put_error (hs : host.tree.Spares store.root host.hidden)
    (he : (store.put name content overwrite host).1 = .error e) :
    (store.put name content overwrite host).2.tree = host.tree :=
  (refused_of_put_error he).tree hs

/-- A removal that fails has done nothing. -/
theorem eq_of_delete_error (he : (store.delete name host).1 = .error e) :
    (store.delete name host).2 = host := by
  unfold delete at he ⊢
  split at he
  · rfl
  · split at he
    · cases he
    · rfl
    · rfl

end Documents

namespace Settings

variable {store : Settings} {key level content client : String}

theorem refused_of_keep_error (he : (store.keep key level content client host).1 = .error e) :
    host.Refused store.root (store.keep key level content client host).2 := by
  cases hk : Identifier.isKey key with
  | false => rw [keep, path, hk]; exact .early
  | true =>
    cases hl : Identifier.isKey level with
    | false => rw [keep, path, hk, hl]; exact .early
    | true =>
      rw [keep, path_eq hk hl] at he ⊢
      dsimp only at he ⊢
      by_cases hc : client = ""
      · rw [if_pos hc]
        exact .early
      · rw [if_neg hc] at he ⊢
        split at he
        · exact .early
        · generalize hr : host.writeAtomic _ _ _ = result at he ⊢
          obtain ⟨outcome, after⟩ := result
          cases outcome with
          | ok _ => cases he
          | error failure =>
            have hlate : host.Refused store.root (host.writeAtomic _ _ _).2 :=
              .late (host.hidden_ne_encode (fileText_visible hl key)) (congrArg Prod.fst hr)
            rw [← fileName_eq, hr] at hlate
            exact hlate

/-- A save that fails is not announced. -/
theorem refused_of_save_error {σ : Type} {sink : Sink σ} {state : σ}
    (he : (store.save sink key level content client host state).1 = .error e) :
    host.Refused store.root (store.save sink key level content client host state).2.1 ∧
      (store.save sink key level content client host state).2.2 = state := by
  obtain ⟨ha, hh⟩ := save_eq_keep store sink key level content client host state
  rw [hh]
  refine ⟨refused_of_keep_error (ha ▸ he), ?_⟩
  unfold save at he ⊢
  split at he
  · cases he
  · rfl

end Settings

/-! ## The service -/

/-- Whether a command is one of the three that can change what is stored. -/
def Command.alters : Command → Bool
  | .putSettings .. | .put .. | .delete _ => true
  | _ => false

namespace Stores

variable {stores : Stores} {command : Command} {body : Option String} {world : World}

/-- The root under which a command makes a hidden file, if it makes one. -/
def writtenRoot? (stores : Stores) : Command → Option Path
  | .putSettings .. => some stores.settings.root
  | .put .. => some stores.documents.root
  | _ => none

theorem handle_of_not_alters (h : command.alters = false) :
    (stores.handle command body world).2 = world := by
  cases command <;> cases h <;> rfl

theorem error_of_handOut {result : Except StoreError String} {reason : String}
    (h : (handOut result).status = .failure reason) : ∃ e, result = .error e := by
  cases result with
  | ok text => cases h
  | error e => exact ⟨e, rfl⟩

theorem error_of_replyToSave {result : Except StoreError Unit} {reason : String}
    (h : (replyToSave result).status = .failure reason) : ∃ e, result = .error e := by
  cases result with
  | ok _ => cases h
  | error e => exact ⟨e, rfl⟩

theorem error_of_replyToDelete {result : Except StoreError Unit} {reason : String}
    (h : (replyToDelete result).status = .failure reason) : ∃ e, result = .error e := by
  cases result with
  | ok _ => cases h
  | error e => exact ⟨e, rfl⟩

/-- The directories in which a command has made a hidden file: it has come to a write, and the root
leads there. -/
def Stirs (stores : Stores) (command : Command) (before after : World) (dir : Location) : Prop :=
  ∃ root ∈ stores.writtenRoot? command,
    after.host.writes ≠ before.host.writes ∧ before.host.Hides root dir

/-- What a command leaves that has come to nothing. The tree is the same tree, the observers have
the same events before them, and the hidden name that was free is free. The times of the directories
are those of before, but for the one in which a hidden file came and went. -/
structure Undone (stores : Stores) (command : Command) (before after : World) : Prop where
  tree : after.host.tree = before.host.tree
  events : after.events = before.events
  spared : ∀ root ∈ stores.writtenRoot? command,
    after.host.tree.Spares root before.host.hidden
  kept : ∀ dir, ¬ stores.Stirs command before after dir →
    after.host.modified dir = before.host.modified dir
  stirred : ∀ dir, stores.Stirs command before after dir →
    after.host.modified dir = before.host.now

/-- A command that makes no hidden file stirs nothing. -/
theorem undone_self (hs : ∀ root ∈ stores.writtenRoot? command,
    world.host.tree.Spares root world.host.hidden) : stores.Undone command world world where
  tree := rfl
  events := rfl
  spared := hs
  kept _ _ := rfl
  stirred := by
    rintro dir ⟨root, -, hw, -⟩
    exact absurd rfl hw

theorem undone_of_refused {after : World} (hr : stores.writtenRoot? command = some root)
    (hs : world.host.tree.Spares root world.host.hidden)
    (hh : world.host.Refused root after.host) (he : after.events = world.events) :
    stores.Undone command world after where
  tree := hh.tree hs
  events := he
  spared := by
    intro other ho
    cases hr.symm.trans ho
    rw [hh.tree hs]
    exact hs
  kept dir hd := hh.modified hs fun ⟨hw, hides⟩ => hd ⟨root, hr, hw, hides⟩
  stirred := by
    rintro dir ⟨other, ho, hw, hides⟩
    cases hr.symm.trans ho
    exact hh.modified_home hs hw hides

/-- **A command that fails comes to nothing**, and so does a command that only reads. -/
theorem undone_of_failure (stores : Stores) (command : Command) (body : Option String)
    (world : World)
    (hs : ∀ root ∈ stores.writtenRoot? command, world.host.tree.Spares root world.host.hidden)
    (h : (∃ reason, (stores.handle command body world).1.status = .failure reason) ∨
      command.alters = false) :
    stores.Undone command world (stores.handle command body world).2 := by
  rcases h with ⟨reason, h⟩ | h
  case inr =>
    rw [handle_of_not_alters h]
    exact undone_self hs
  case inl =>
    cases command with
    | putSettings key level client length =>
      obtain ⟨e, he⟩ := error_of_replyToSave h
      obtain ⟨hh, hevents⟩ := Settings.refused_of_save_error he
      exact undone_of_refused rfl (hs _ rfl) hh hevents
    | put name overwrite length =>
      obtain ⟨e, he⟩ := error_of_handOut h
      exact undone_of_refused rfl (hs _ rfl) (Documents.refused_of_put_error he) rfl
    | delete name =>
      obtain ⟨e, he⟩ := error_of_replyToDelete h
      have hw : (stores.handle (.delete name) body world).2 = world :=
        congrArg (fun host => { world with host }) (Documents.eq_of_delete_error he)
      rw [hw]
      exact undone_self hs
    | _ => exact undone_self hs

/-- A root in which a link that leads nowhere has the name of a document, and a file the hidden name
of another process. -/
def danglingWorld : World :=
  ⟨⟨((Tree.empty.attach [] [0x64] .directory).attach [[0x64]] (Documents.fileName "a")
      (.link [0x78])).attach [[0x64]] (Host.hiddenName 2 0) (.file ⟨0, [], 0⟩),
    1, 1, 0, fun _ => 0⟩, .ofCapacity 1⟩

theorem spares_danglingWorld :
    danglingWorld.host.tree.Spares (.winding 0) danglingWorld.host.hidden := by
  intro home _
  refine danglingWorld.host.tree.get?_cons_eq_none_iff.2 fun entry he hl => ?_
  have hn : ∀ entry ∈ danglingWorld.host.tree.entries,
      entry.name ≠ danglingWorld.host.hidden := by decide +kernel
  exact hn entry he (List.cons.inj hl).1

/-- A put that may not overwrite sees nothing there, has its hidden file complete, and only then
finds the link in its way. -/
theorem undone_of_failure_dangling :
    let stores : Stores := ⟨⟨.winding 0⟩, ⟨.winding 0⟩, ⟨.winding 0⟩⟩
    let command : Command := .put "a" false 1
    let result := stores.handle command (some "x") danglingWorld
    result.1.status = .failure "File already exists: a. Use overwrite to replace it" ∧
      danglingWorld.host.tree.Spares stores.documents.root danglingWorld.host.hidden ∧
      stores.Undone command danglingWorld result.2 ∧ result.2.host.writes = 1 := by
  intro stores command result
  have hf : result.1.status =
      .failure "File already exists: a. Use overwrite to replace it" := by decide +kernel
  refine ⟨hf, spares_danglingWorld, ?_, by decide +kernel⟩
  refine undone_of_failure stores command (some "x") danglingWorld ?_ (.inl ⟨_, hf⟩)
  intro root hr
  cases hr
  exact spares_danglingWorld

/-- That is not all as it was: the directory is modified. And a hidden file of another process is
where it was, so that there is one after the failure. -/
theorem modified_by_failure :
    let stores : Stores := ⟨⟨.winding 0⟩, ⟨.winding 0⟩, ⟨.winding 0⟩⟩
    let result := stores.handle (.put "a" false 1) (some "x") danglingWorld
    result.1.status = .failure "File already exists: a. Use overwrite to replace it" ∧
      danglingWorld.host.tree.Spares stores.documents.root danglingWorld.host.hidden ∧
      result.2.host.modified [[0x64]] ≠ danglingWorld.host.modified [[0x64]] ∧
      result.2.host.tree.get? [Host.hiddenName 2 0, [0x64]] ≠ none := by
  refine ⟨by decide +kernel, spares_danglingWorld, ?_, ?_⟩
  · decide +kernel
  · decide +kernel

end Stores
end LineStore
