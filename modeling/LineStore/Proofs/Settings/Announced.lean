import Mathlib.Control.Monad.Basic
import LineStore.Proofs.Files.Reread
import LineStore.Proofs.Service.OneEntry

/-!
# Saves and their announcements

A sink may do what it likes with an announcement, so what it was handed cannot be read off its
state. `Sink.recorded` is the same sink with a record of all that it is handed, and of the tree at
that moment. With it a save that succeeds adds one entry to the record and a save that fails adds
none, whatever the sink answers; and what the save answers and leaves does not depend on the sink.

When the announcement is made the content is on file. A load finds it there if the root's path does
without the entry that was replaced. A root may be reached through a link that has the name of the
setting, and then the save takes away the root's own way (`not_loaded_after_save`).
-/

namespace LineStore

/-- A sink with a record of the events that it was handed, and of the tree at that time. -/
def Sink.recorded {σ : Type} (sink : Sink σ) : Sink (σ × List (Tree × Event)) :=
  fun tree event state =>
    ((sink tree event state.1).1, (sink tree event state.1).2, state.2 ++ [(tree, event)])

/-- The event says that this client saved the setting with this key and level, and no more. -/
structure Event.Announces (event : Event) (client key level : String) : Prop where
  topic : event.topic = "settings-update"
  payload : ∃ time, event.payload = .object [("key", .string key), ("level", .string level),
    ("originatingClientId", .string client), ("timestampMillis", .natural time)]

namespace Settings

variable {σ : Type} {store : Settings} {sink : Sink σ} {key level content client : String}
  {host : Host} {state : σ} {seen : List (Tree × Event)}

/-- A save that was made, with the time and the answer. -/
structure Made where
  key : String
  level : String
  content : String
  client : String
  time : Instant
  answer : Except StoreError Unit

/-- The event of a save, if it was successful. -/
def Made.event? (made : Made) : Option Event :=
  match made.answer with
  | .ok () => some (announcement made.key made.level made.client made.time).event
  | .error _ => none

/-! ## One save -/

theorem save_of_keep_ok {after : Host}
    (h : store.keep key level content client host = (.ok (), after)) :
    store.save sink key level content client host state =
      (.ok (), after,
        sink.announce (announcement key level client after.now) after.tree state) := by
  rw [save, h]

theorem save_of_keep_error {after : Host} {e : StoreError}
    (h : store.keep key level content client host = (.error e, after)) :
    store.save sink key level content client host state = (.error e, after, state) := by
  rw [save, h]

theorem now_of_keep_ok {after : Host}
    (h : store.keep key level content client host = (.ok (), after)) : after.now = host.now := by
  obtain ⟨-, -, -, hafter⟩ := write_of_keep_ok (congrArg Prod.fst h)
  rw [h] at hafter
  rw [show after = _ from hafter]
  rfl

/-- **The record grows by the event of the save, with the tree that the save left.** -/
theorem save_recorded (store : Settings) (sink : Sink σ) (key level content client : String)
    (host : Host) (state : σ) (seen : List (Tree × Event)) :
    store.save sink.recorded key level content client host (state, seen) =
      let plain := store.save sink key level content client host state
      (plain.1, plain.2.1, plain.2.2, seen ++
        ((Made.event? ⟨key, level, content, client, host.now, plain.1⟩).map
          fun event => (plain.2.1.tree, event)).toList) := by
  cases hk : store.keep key level content client host with
  | mk answer after =>
    cases answer with
    | ok _ =>
      rw [save_of_keep_ok hk, save_of_keep_ok hk, now_of_keep_ok hk]
      rfl
    | error e =>
      rw [save_of_keep_error hk, save_of_keep_error hk]
      simp [Made.event?]

/-- **Once a save has succeeded, a load finds the content exactly if the root's path does without
the entry that was replaced.** -/
theorem load_of_save_ok (hs : host.tree.Spares store.root host.hidden)
    (h : (store.save sink key level content client host state).1 = .ok ()) :
    ∃ home, host.tree.Opens store.root home ∧
      (store.load key level (store.save sink key level content client host state).2.1.tree =
        .ok content ↔ host.tree.OpensWithout store.root home (fileName key level)) := by
  obtain ⟨ha, hh⟩ := save_eq_keep store sink key level content client host state
  rw [ha] at h
  obtain ⟨hk, hl, hw, hafter⟩ := write_of_keep_ok h
  obtain ⟨home, ho, hx, ht⟩ := AtomicWrite.place_of_run_ok
    (w := host.prepare (store.root.child (fileName key level)) (Utf8.encode content) .replace)
    rfl store.root.alike_trim (Path.sibling_child ..) hs
    (host.hidden_ne_encode (fileText_visible hl key)) hw
  have hn := AtomicWrite.ne_directory_of_hindrance? hx
  have hr : store.root.refusal? (fileName key level) = none :=
    (Option.or_eq_none_iff.1 (Option.or_eq_none_iff.1 hx).1).2
  have htree : (store.save sink key level content client host state).2.1.tree =
      host.tree.place home (fileName key level)
        (.file ⟨host.tree.freshId, Utf8.encode content, host.now⟩) := by
    rw [hh, hafter]
    exact ht
  refine ⟨home, ho, ?_⟩
  rw [htree, load, path_eq hk hl]
  dsimp only
  unfold Tree.readText?
  by_cases hwo : host.tree.OpensWithout store.root home (fileName key level)
  · rw [Tree.readBytes_place ho.directory hn hr hwo]
    simp [hwo]
  · rw [Tree.readBytes_place_blocked ho hn hr hwo]
    simp [hwo]

/-! ## A whole run -/

/-- The hosts and the states of a sink that a run of saves comes to, with the record of the sink
and the saves in order. Between two saves anything may happen to the host and to the sink. -/
inductive Ran (store : Settings) (sink : Sink σ) :
    Host → σ → List (Tree × Event) → List Made → Prop
  | start (host : Host) (state : σ) : Ran store sink host state [] []
  | save {host after : Host} {state state' : σ} {seen seen' : List (Tree × Event)}
      {past : List Made} {key level content client : String} {answer : Except StoreError Unit}
      (h : Ran store sink host state seen past)
      (hsave : store.save sink.recorded key level content client host (state, seen) =
        (answer, after, state', seen')) :
      Ran store sink after state' seen'
        (past ++ [⟨key, level, content, client, host.now, answer⟩])
  | meanwhile {host : Host} {state : σ} {seen : List (Tree × Event)} {past : List Made}
      (h : Ran store sink host state seen past) (host' : Host) (state' : σ) :
      Ran store sink host' state' seen past

theorem record_of_ran {past : List Made} (h : Ran store sink host state seen past) :
    seen.map (·.2) = past.filterMap Made.event? := by
  induction h with
  | start host state => rfl
  | meanwhile _ _ _ ih => exact ih
  | @save host after state state' seen seen' past key level content client answer _ hsave ih =>
    rw [save_recorded] at hsave
    obtain ⟨rfl, -, -, rfl⟩ := by simpa using hsave
    rw [List.map_append, ih, List.filterMap_append]
    congr 1
    cases hm : Made.event? ⟨key, level, content, client, host.now, _⟩ <;> simp [hm]

/-- **A save is announced exactly when it is on file.** With any sink, in any state: the sink is
handed one event if the save succeeds and none if it fails; the tree that it is handed the event in
is the one that the save leaves, where a load finds the content, exactly if the root's path does
without the entry that was replaced; and answer and host are those of a save with any other sink.
Over a run, the sink is handed the events of the saves that succeeded, in order. -/
theorem announced_iff_saved (store : Settings) :
    (∀ (σ : Type) (sink : Sink σ) (key level content client : String) (host after : Host)
        (state state' : σ) (seen seen' : List (Tree × Event)) (answer : Except StoreError Unit),
      store.save sink.recorded key level content client host (state, seen) =
          (answer, after, state', seen') →
        (answer = .ok () → ∃ event, event.Announces client key level ∧
          seen' = seen ++ [(after.tree, event)]) ∧
        (answer ≠ .ok () → seen' = seen) ∧
        (host.tree.Spares store.root host.hidden → answer = .ok () →
          ∃ home, host.tree.Opens store.root home ∧
            (store.load key level after.tree = .ok content ↔
              host.tree.OpensWithout store.root home (fileName key level))) ∧
        ∀ (τ : Type) (other : Sink τ) (s : τ), ∃ s',
          store.save other key level content client host s = (answer, after, s')) ∧
    ∀ (σ : Type) (sink : Sink σ) (host : Host) (state : σ) (seen : List (Tree × Event))
        (past : List Made), Ran store sink host state seen past →
      seen.map (·.2) = past.filterMap Made.event? := by
  refine ⟨?single, fun σ sink host state seen past => record_of_ran⟩
  case single =>
    intro σ sink key level content client host after state state' seen seen' answer h
    rw [save_recorded] at h
    obtain ⟨ha, rfl, rfl, rfl⟩ := by simpa using h
    refine ⟨?_, ?_, ?_, ?_⟩
    · intro hok
      refine ⟨(announcement key level client host.now).event,
        ⟨rfl, epochMillis host.now, rfl⟩, ?_⟩
      rw [ha, hok]
      rfl
    · intro hno
      rw [ha]
      cases answer with
      | ok _ => exact absurd rfl hno
      | error e => simp [Made.event?]
    · intro hs hok
      exact load_of_save_ok hs (ha.trans hok)
    · intro τ other s
      obtain ⟨ha', hh'⟩ := save_eq_keep store sink key level content client host state
      obtain ⟨ho, hho⟩ := save_eq_keep store other key level content client host s
      refine ⟨(store.save other key level content client host s).2.2, ?_⟩
      rw [← ha, ha', hh', ← ho, ← hho]

/-- A sink that refuses the first event and breaks down over the others. -/
def fickle : Sink Nat
  | _, _, 0 => (.error (.rejected "no"), 1)
  | _, _, n => (.error .brokenDown, n)

theorem announced_iff_saved_fickle :
    let store : Settings := ⟨.winding 0⟩
    let first := store.save fickle.recorded "k" "u" "1" "m" .fresh (0, [])
    let second := store.save fickle.recorded "k" "u" "no" "m" first.2.1 first.2.2
    first.1 = .ok () ∧ second.1 ≠ .ok () ∧
      Host.fresh.tree.Spares store.root Host.fresh.hidden ∧
      (∃ event, event.Announces "m" "k" "u" ∧ first.2.2.2 = [(first.2.1.tree, event)]) ∧
      (∃ home, Host.fresh.tree.Opens store.root home ∧
        (store.load "k" "u" first.2.1.tree = .ok "1" ↔
          Host.fresh.tree.OpensWithout store.root home (fileName "k" "u"))) ∧
      store.load "k" "u" first.2.1.tree = .ok "1" ∧
      second.2.2.2 = first.2.2.2 ∧
      second.2.2.2.map (·.2) = [⟨"k", "u", "1", "m", Host.fresh.now, first.1⟩,
        ⟨"k", "u", "no", "m", first.2.1.now, second.1⟩].filterMap Made.event? := by
  intro store first second
  have eta : ∀ r : Except StoreError Unit × Host × Nat × List (Tree × Event),
      r = (r.1, r.2.1, r.2.2.1, r.2.2.2) := fun _ => rfl
  obtain ⟨single, run⟩ := announced_iff_saved store
  have hfirst : first.1 = .ok () := by decide +kernel
  have hsecond : second.1 ≠ .ok () := by decide +kernel
  have hload : store.load "k" "u" first.2.1.tree = .ok "1" := by decide +kernel
  have hspares : Host.fresh.tree.Spares store.root Host.fresh.hidden :=
    .of_names (by decide +kernel)
  obtain ⟨hok, -, hfound, -⟩ := single Nat fickle "k" "u" "1" "m" .fresh _ 0 _ [] _ _ (eta first)
  obtain ⟨-, hno, -, -⟩ := single Nat fickle "k" "u" "no" "m" first.2.1 _ _ _ _ _ _ (eta second)
  have hran : Ran store fickle second.2.1 second.2.2.1 second.2.2.2 _ :=
    .save (.save (.start .fresh 0) (eta first)) (eta second)
  have hrecord := run _ _ _ _ _ _ hran
  simp only [List.nil_append] at hok hrecord
  exact ⟨hfirst, hsecond, hspares, hok hfirst, hfound hspares hfirst, hload, hno hsecond, hrecord⟩

/-- A directory that a link inside it leads back to; the link has a setting's name. -/
def loopedHost : Host :=
  ⟨(Tree.empty.attach [] [0x64] .directory).attach [[0x64]] (fileName "k" "u") (.link [0x2E]),
    0, 1, 0, fun _ => 0⟩

/-- A directory in which the next hidden name is taken, by a link to a setting. -/
def takenHost : Host :=
  ⟨(Tree.empty.attach [] [0x64] .directory).attach [[0x64]] (Host.hiddenName 1 0)
    (.link (fileName "k" "u")), 0, 1, 0, fun _ => 0⟩

theorem spares_loopedHost (root : Path) : loopedHost.tree.Spares root loopedHost.hidden :=
  .of_names (by decide +kernel)

/-- **A save can succeed and the setting not be there to be loaded**: where the root is reached
through the link that the save replaces, and where the hidden name was in use. -/
theorem not_loaded_after_save :
    (let store : Settings := ⟨⟨true, [.name [0x64], .name (fileName "k" "u")], false⟩⟩
      let saved := store.save fickle "k" "u" "1" "m" loopedHost 0
      loopedHost.tree.Spares store.root loopedHost.hidden ∧ saved.1 = .ok () ∧
        store.load "k" "u" saved.2.1.tree = .error (.storage "Not a directory (os error 20)")) ∧
    (let store : Settings := ⟨.winding 0⟩
      let saved := store.save fickle "k" "u" "1" "m" takenHost 0
      saved.1 = .ok () ∧ store.load "k" "u" saved.2.1.tree =
        .error (.storage "Too many levels of symbolic links (os error 40)")) :=
  ⟨⟨spares_loopedHost _, by decide +kernel, by decide +kernel⟩,
    by decide +kernel, by decide +kernel⟩

end Settings
end LineStore
