import LineStore.Proofs.Identifier
import LineStore.Proofs.Run
import LineStore.Store.Settings

/-!
# The settings are a map

As with the documents: a save is refused and the tree is what it was, or the one entry of its file
holds the content; and a load reads that entry. What the files are a map from is the **text of the
file's name**, in which level and key are put together (`fileText`). So a run keeps, under each of
these texts, the content of the last save there that succeeded (`bound`).

A save is made with a sink, in whatever state the sink is. Nothing here depends on it.
-/

namespace LineStore.Settings

/-- The text of the name of the file that a setting is kept in. -/
def fileText (key level : String) : String := level ++ "." ++ key ++ ".json"

theorem fileName_eq (key level : String) : fileName key level = Utf8.encode (fileText key level) :=
  rfl

/-- A call of the settings; a save comes with the state of the sink. -/
inductive Call (σ : Type)
  | save (key level content client : String) (state : σ)
  | load (key level : String)

abbrev Answer := Except StoreError (Option String)

abbrev History (σ : Type) := List (Call σ × Answer)

variable {σ : Type}

namespace Call

def key : Call σ → String
  | save key _ _ _ _ => key
  | load key _ => key

def level : Call σ → String
  | save _ level _ _ _ => level
  | load _ level => level

def value (texts : String → Option String) : Call σ → Option String
  | save .. => none
  | load key level => texts (fileText key level)

/-- The texts after a call that is not refused. -/
def update (texts : String → Option String) : Call σ → String → Option String
  | save key level content _ _ => fun t => if t = fileText key level then some content else texts t
  | load .. => texts

def tree (home : Location) (host : Host) : Call σ → Tree
  | save key level content _ _ =>
    host.tree.place home (fileName key level)
      (.file ⟨host.tree.freshId, Utf8.encode content, host.now⟩)
  | load .. => host.tree

end Call

def act (store : Settings) (sink : Sink σ) (call : Call σ) (host : Host) : Answer × Host :=
  match call with
  | .save key level content client state =>
    match store.save sink key level content client host state with
    | (answer, host, _) => (answer.map fun () => none, host)
  | .load key level => ((store.load key level host.tree).map some, host)

/-! ## One call -/

variable {store : Settings} {sink : Sink σ} {host : Host} {home : Location}
  {texts : String → Option String} {key level : String}

/-- What is wrong with a text that is to be a setting. -/
def contentRefusal? (content client : String) : Option StoreError :=
  if client = "" then some .missingClient
  else
    match checkContent content with
    | .ok () => none
    | .error e => some e

/-- Why a call with an accepted key and level is refused: the first cause that is found. -/
def cause? (store : Settings) (host : Host) (texts : String → Option String) :
    Call σ → Option StoreError
  | .save key level content client _ =>
    (contentRefusal? content client).or
      (((store.root.trim.refusal? host.hidden).or
        (store.root.refusal? (fileName key level))).map .ofFile)
  | .load key level =>
    ((store.root.refusal? (fileName key level)).map .ofFile).or
      (if (texts (fileText key level)).isSome then none else some (.notFound (level ++ "." ++ key)))

def refusal? (store : Settings) (host : Host) (texts : String → Option String) (call : Call σ) :
    Option StoreError :=
  if !Identifier.isKey call.key then some (.invalidKey call.key)
  else if !Identifier.isKey call.level then some (.invalidKey call.level)
  else store.cause? host texts call

theorem path_eq (hk : Identifier.isKey key = true) (hl : Identifier.isKey level = true) :
    store.path key level = .ok (store.root.child (fileName key level)) := by
  rw [path, hk, hl]
  rfl

theorem fileText_visible (h : Identifier.isKey level = true) (key : String) :
    (fileText key level).toList.head? ≠ some '.' := by
  obtain ⟨hne, hd, _⟩ := Identifier.isKey_iff.1 h
  have ht : (fileText key level).toList.head? = level.toList.head? := by
    unfold fileText
    obtain ⟨c, rest, hc⟩ := List.exists_cons_of_ne_nil hne
    simp only [String.toList_append, List.append_assoc, hc]
    rfl
  rw [ht]
  exact (Identifier.hasDotHazard_eq_false_iff.1 hd).1

theorem keep_ends (h : host.tree.Keeps store.root home texts) (hk : Identifier.isKey key = true)
    (hl : Identifier.isKey level = true) (content client : String) (state : σ) :
    Ends (store.cause? host texts (.save key level content client state)) ()
      ((Call.save key level content client state).tree home host) host
      (store.keep key level content client host) := by
  have hw := host.writeAtomic_eq h (fileText_visible hl key) (Utf8.encode content) .replace
  rw [keep, path_eq hk hl, cause?, contentRefusal?]
  dsimp only
  by_cases hc : client = ""
  · rw [if_pos hc, if_pos hc]
    exact ⟨rfl, rfl⟩
  · rw [if_neg hc, if_neg hc]
    cases checkContent content with
    | error e => exact ⟨rfl, rfl⟩
    | ok _ =>
      dsimp only
      rw [fileName_eq, hw, Host.writeRefusal?, if_neg (by simp), Option.or_none, Option.none_or]
      cases (store.root.trim.refusal? host.hidden).or (store.root.refusal? (Utf8.encode _)) <;>
        exact ⟨rfl, rfl⟩

theorem load_eq (h : host.tree.Keeps store.root home texts) (hk : Identifier.isKey key = true)
    (hl : Identifier.isKey level = true) :
    (store.load key level host.tree).map some =
      match store.cause? host texts (.load key level : Call σ) with
      | some e => .error e
      | none => .ok (texts (fileText key level)) := by
  rw [load, path_eq hk hl, cause?, fileName_eq]
  dsimp only
  rw [h.opens.readText?_child (h.kept (fileText key level))]
  cases store.root.refusal? (Utf8.encode (fileText key level)) with
  | some e => rfl
  | none => cases texts (fileText key level) <;> rfl

/-- What a save does to the files does not depend on the sink. -/
theorem save_eq_keep (store : Settings) (sink : Sink σ) (key level content client : String)
    (host : Host) (state : σ) :
    (store.save sink key level content client host state).1 =
        (store.keep key level content client host).1 ∧
      (store.save sink key level content client host state).2.1 =
        (store.keep key level content client host).2 := by
  unfold save
  split
  · rename_i hs
    rw [hs]
    exact ⟨rfl, rfl⟩
  · rename_i hs
    rw [hs]
    exact ⟨rfl, rfl⟩

/-- **A call is refused and changes nothing, or does its work at its file.** -/
theorem act_ends (h : host.tree.Keeps store.root home texts) (call : Call σ) :
    Ends (store.refusal? host texts call) (call.value texts) (call.tree home host) host
      (store.act sink call host) := by
  cases call with
  | save key level content client state =>
    have hs : store.act sink (.save key level content client state) host =
        ((store.keep key level content client host).1.map fun () => none,
          (store.keep key level content client host).2) := by
      obtain ⟨ha, hh⟩ := save_eq_keep store sink key level content client host state
      rw [← ha, ← hh]
      rfl
    rw [hs, refusal?, Call.key, Call.level]
    cases hk : Identifier.isKey key with
    | false =>
      rw [keep, path, hk]
      exact ⟨rfl, rfl⟩
    | true =>
      cases hl : Identifier.isKey level with
      | false =>
        rw [keep, path, hk, hl]
        exact ⟨rfl, rfl⟩
      | true =>
        rw [if_neg (by simp), if_neg (by simp)]
        exact (keep_ends h hk hl content client state).map fun () => none
  | load key level =>
    rw [act, refusal?, Call.key, Call.level]
    cases hk : Identifier.isKey key with
    | false =>
      rw [load, path, hk]
      exact ⟨rfl, rfl⟩
    | true =>
      cases hl : Identifier.isKey level with
      | false =>
        rw [load, path, hk, hl]
        exact ⟨rfl, rfl⟩
      | true =>
        rw [load_eq (σ := σ) h hk hl, if_neg (by simp), if_neg (by simp)]
        cases store.cause? host texts (.load key level : Call σ) <;> exact ⟨rfl, rfl⟩

theorem accepted_of_refusal? {call : Call σ} (h : store.refusal? host texts call = none) :
    Identifier.isKey call.key = true ∧ Identifier.isKey call.level = true := by
  unfold refusal? at h
  cases hk : Identifier.isKey call.key with
  | false =>
    rw [hk] at h
    cases h
  | true =>
    cases hl : Identifier.isKey call.level with
    | false =>
      rw [hk, hl] at h
      cases h
    | true => exact ⟨rfl, rfl⟩

/-! ## A whole run -/

/-- The content that the past has left under the text of a file's name. -/
def bound : History σ → String → Option String
  | [], _ => none
  | (call, .ok _) :: past, t => call.update (bound past) t
  | (_, .error _) :: past, t => bound past t

variable {past : History σ}

/-- **The root never gets out of step with the past.** -/
theorem keeps_of_reached (h : Reached (store.act sink) store.root home host past) :
    host.tree.Keeps store.root home (bound past) := by
  induction h with
  | start h => exact h.keeps
  | meanwhile _ hu ih => exact ih.undisturbed hu
  | @call host past _ c ih =>
    have hends : Ends _ _ _ host (store.act sink c host) := act_ends ih c
    rcases hends.cases with ⟨e, _, ha, ht⟩ | ⟨hr, ha, ht⟩
    · rw [ha, ht]
      exact ih
    · obtain ⟨_, hl⟩ := accepted_of_refusal? hr
      rw [ha, ht]
      cases c with
      | load key level => exact ih
      | save key level content client state => exact ih.place rfl (fileText_visible hl key)

end LineStore.Settings
