import LineStore.Proofs.Documents.Keys
import LineStore.Proofs.Run

/-!
# The documents are a map

A call of the documents comes to one of two ends. It is refused, for the first of the causes in
`refusal?`, and the tree is what it was; or it does what its kind does to **one entry**, the one
with the call's key. `act_ends` says so for a root that keeps texts, and that is one step of a run.

A run keeps the root in step with its own past. `bound` reads the past: the text that stands under a
key is the text of the last put there that succeeded, unless a delete came after. `Mirrors` is the
invariant that the root keeps exactly these texts, and with it every answer is one that the past
gives.
-/

namespace LineStore.Documents

inductive Call
  | put (name content : String) (overwrite : Bool)
  | get (name : String)
  | delete (name : String)

/-- What a call answers: a text, nothing, or why it is refused. -/
abbrev Answer := Except StoreError (Option String)

/-- The calls of a run with their answers, the newest first. -/
abbrev History := List (Call × Answer)

namespace Call

def name : Call → String
  | put name _ _ => name
  | get name => name
  | delete name => name

def value (texts : String → Option String) : Call → Option String
  | put _ content _ => some content
  | get name => texts (key name)
  | delete _ => none

/-- The texts after a call that is not refused. -/
def update (texts : String → Option String) : Call → String → Option String
  | put name content _ => fun k => if k = key name then some content else texts k
  | get _ => texts
  | delete name => fun k => if k = key name then none else texts k

def tree (home : Location) (host : Host) : Call → Tree
  | put name content _ =>
    host.tree.place home (fileName name) (.file ⟨host.tree.freshId, Utf8.encode content, host.now⟩)
  | get _ => host.tree
  | delete name => host.tree.detach (fileName name :: home)

end Call

def act (store : Documents) (call : Call) (host : Host) : Answer × Host :=
  match call with
  | .put name content overwrite =>
    match store.put name content overwrite host with
    | (answer, host) => (answer.map some, host)
  | .get name => ((store.get name host.tree).map some, host)
  | .delete name =>
    match store.delete name host with
    | (answer, host) => (answer.map fun () => none, host)

/-! ## One call -/

variable {store : Documents} {host : Host} {home : Location} {texts : String → Option String}

def fileRefusal? (store : Documents) (name : String) : Option StoreError :=
  (store.root.refusal? (fileName name)).map .ofFile

/-- The hidden file is a child of the root's path without what only winds at its end. -/
def hiddenRefusal? (store : Documents) (host : Host) : Option StoreError :=
  (store.root.trim.refusal? host.hidden).map .ofFile

/-- Why a call under an accepted name is refused: the first cause that is found. -/
def cause? (store : Documents) (host : Host) (texts : String → Option String) :
    Call → Option StoreError
  | .put name _ true => (store.hiddenRefusal? host).or (store.fileRefusal? name)
  -- A put that may not overwrite looks before it writes.
  | .put name _ false =>
    ((store.fileRefusal? name).or
      (if (texts (key name)).isSome then some (.alreadyExists name) else none)).or
      (store.hiddenRefusal? host)
  | .get name | .delete name =>
    (store.fileRefusal? name).or
      (if (texts (key name)).isSome then none else some (.notFound name))

def refusal? (store : Documents) (host : Host) (texts : String → Option String) (call : Call) :
    Option StoreError :=
  if Identifier.isDocumentName call.name then store.cause? host texts call
  else some (.invalidName call.name)

theorem path_eq {name : String} (h : Identifier.isDocumentName name = true) :
    store.path name = .ok (store.root.child (fileName name)) := by
  rw [path, if_pos h]

theorem path_invalid {name : String} (h : Identifier.isDocumentName name ≠ true) :
    store.path name = .error (.invalidName name) := by
  rw [path, if_neg h]

theorem put_ends (h : host.tree.Keeps store.root home texts) (name content : String)
    (overwrite : Bool) :
    Ends (store.refusal? host texts (.put name content overwrite)) content
      ((Call.put name content overwrite).tree home host) host
      (store.put name content overwrite host) := by
  by_cases hn : Identifier.isDocumentName name = true
  case neg =>
    rw [put, path_invalid hn, refusal?, Call.name, if_neg hn]
    exact ⟨rfl, rfl⟩
  case pos =>
    unfold Ends
    have hw := fun mode => host.writeAtomic_eq h (key_visible hn) (Utf8.encode content) mode
    have he := h.opens.fileExists_child (h.kept (key name))
    rw [refusal?, Call.name, if_pos hn, put, path_eq hn, fileName_eq]
    cases overwrite with
    | true =>
      rw [cause?, hiddenRefusal?, fileRefusal?, fileName_eq]
      dsimp only
      rw [if_pos rfl, if_pos rfl]
      dsimp only
      rw [hw, Host.writeRefusal?]
      cases hh : store.root.trim.refusal? host.hidden with
      | some e => rcases Path.refusal_cases hh with rfl | rfl <;> exact ⟨rfl, rfl⟩
      | none =>
        cases hf : store.root.refusal? (Utf8.encode (key name)) with
        | some e => rcases Path.refusal_cases hf with rfl | rfl <;> exact ⟨rfl, rfl⟩
        | none => exact ⟨rfl, rfl⟩
    | false =>
      rw [cause?, hiddenRefusal?, fileRefusal?, fileName_eq]
      simp only [Bool.false_eq_true, if_false, he]
      cases hf : store.root.refusal? (Utf8.encode (key name)) with
      | some e => exact ⟨rfl, rfl⟩
      | none =>
        cases ht : texts (key name) with
        | some text => exact ⟨rfl, rfl⟩
        | none =>
          -- The look found nothing, so the write finds nothing in its way either.
          dsimp only
          rw [hw, Host.writeRefusal?, hf, ht]
          cases hh : store.root.trim.refusal? host.hidden with
          | some e => rcases Path.refusal_cases hh with rfl | rfl <;> exact ⟨rfl, rfl⟩
          | none => exact ⟨rfl, rfl⟩

theorem get_eq (h : host.tree.Keeps store.root home texts) (name : String) :
    (store.get name host.tree).map some =
      match store.refusal? host texts (.get name) with
      | some e => .error e
      | none => .ok (texts (key name)) := by
  by_cases hn : Identifier.isDocumentName name = true
  case neg =>
    rw [get, path_invalid hn, refusal?, Call.name, if_neg hn]
    rfl
  case pos =>
    rw [refusal?, Call.name, if_pos hn, get, path_eq hn, cause?, fileRefusal?, fileName_eq]
    dsimp only
    rw [h.opens.readText?_child (h.kept (key name))]
    cases hf : store.root.refusal? (Utf8.encode (key name)) with
    | some e => rfl
    | none => cases texts (key name) <;> rfl

theorem delete_ends (h : host.tree.Keeps store.root home texts) (name : String) :
    Ends (store.refusal? host texts (.delete name)) () ((Call.delete name).tree home host) host
      (store.delete name host) := by
  by_cases hn : Identifier.isDocumentName name = true
  case neg =>
    rw [delete, path_invalid hn, refusal?, Call.name, if_neg hn]
    exact ⟨rfl, rfl⟩
  case pos =>
    rw [refusal?, Call.name, if_pos hn, delete, path_eq hn, cause?, fileRefusal?, fileName_eq]
    dsimp only
    rw [h.opens.unlink_kept (h.kept (key name))]
    cases hf : store.root.refusal? (Utf8.encode (key name)) with
    | some e => rcases Path.refusal_cases hf with rfl | rfl <;> exact ⟨rfl, rfl⟩
    | none => cases texts (key name) <;> exact ⟨rfl, rfl⟩

/-- **A call is refused and changes nothing, or does its work at its key.** -/
theorem act_ends (h : host.tree.Keeps store.root home texts) (call : Call) :
    Ends (store.refusal? host texts call) (call.value texts) (call.tree home host) host
      (store.act call host) := by
  cases call with
  | put name content overwrite => exact (store.put_ends h name content overwrite).map some
  | get name =>
    rw [act, get_eq h]
    cases store.refusal? host texts (.get name) <;> exact ⟨rfl, rfl⟩
  | delete name => exact (delete_ends h name).map fun () => none

theorem act_refused {call : Call} {e : StoreError} (h : host.tree.Keeps store.root home texts)
    (hr : store.refusal? host texts call = some e) : (store.act call host).1 = .error e := by
  have hends := act_ends h call
  rw [hr] at hends
  exact hends.refused.1

theorem accepted_of_refusal? {call : Call} (h : store.refusal? host texts call = none) :
    Identifier.isDocumentName call.name = true ∧ store.fileRefusal? call.name = none := by
  unfold refusal? at h
  split at h
  case isFalse => cases h
  case isTrue hn =>
    refine ⟨hn, ?_⟩
    cases call with
    | put name content overwrite =>
      cases overwrite with
      | true => exact (Option.or_eq_none_iff.1 h).2
      | false => exact (Option.or_eq_none_iff.1 (Option.or_eq_none_iff.1 h).1).1
    | get name | delete name => exact (Option.or_eq_none_iff.1 h).1

/-! ## A whole run -/

/-- The text that the past has left under a key: that of the last put there which succeeded, and
none if a delete succeeded after it. -/
def bound : History → String → Option String
  | [], _ => none
  | (call, .ok _) :: past, k => call.update (bound past) k
  | (_, .error _) :: past, k => bound past k

/-- The answer that the past gives to a call. -/
def expected (store : Documents) (host : Host) (past : History) (call : Call) : Answer :=
  match store.refusal? host (bound past) call with
  | some e => .error e
  | none => .ok (call.value (bound past))

/-- The root keeps what the past has left, and that under the keys of names that can be used. -/
structure Mirrors (store : Documents) (home : Location) (host : Host) (past : History) : Prop where
  keeps : host.tree.Keeps store.root home (bound past)
  named : ∀ k, bound past k ≠ none → ∃ name, Identifier.isDocumentName name = true ∧
    key name = k ∧ store.fileRefusal? name = none

variable {past : History}

theorem Mirrors.call (h : store.Mirrors home host past) (call : Call) :
    store.Mirrors home (store.act call host).2 ((call, (store.act call host).1) :: past) := by
  rcases (store.act_ends h.keeps call).cases with ⟨e, _, ha, ht⟩ | ⟨hr, ha, ht⟩
  · rw [ha]
    exact ⟨ht ▸ h.keeps, h.named⟩
  · obtain ⟨hn, hf⟩ := accepted_of_refusal? hr
    rw [ha]
    cases call with
    | get name => exact ⟨ht ▸ h.keeps, h.named⟩
    | put name content overwrite =>
      refine ⟨ht ▸ h.keeps.place rfl (key_visible hn), fun k hk => ?_⟩
      by_cases he : k = key name
      · exact ⟨name, hn, he.symm, hf⟩
      · exact h.named k fun hb => hk ((if_neg he).trans hb)
    | delete name =>
      refine ⟨ht ▸ h.keeps.detach (key name), fun k hk => ?_⟩
      by_cases he : k = key name
      · exact absurd (if_pos he) hk
      · exact h.named k fun hb => hk ((if_neg he).trans hb)

/-- **The root never gets out of step with the past.** -/
theorem mirrors_of_reached (h : Reached store.act store.root home host past) :
    store.Mirrors home host past := by
  induction h with
  | start h => exact ⟨h.keeps, fun k hk => absurd rfl hk⟩
  | call _ c ih => exact ih.call c
  | meanwhile _ hu ih => exact ⟨ih.keeps.undisturbed hu, ih.named⟩

theorem get?_act (h : host.tree.Keeps store.root home texts) (call : Call) {loc : Location}
    (hl : loc ≠ fileName call.name :: home) :
    (store.act call host).2.tree.get? loc = host.tree.get? loc := by
  rcases (store.act_ends h call).cases with ⟨e, _, _, ht⟩ | ⟨_, _, ht⟩
  · rw [ht]
  · rw [ht]
    cases call with
    | get name => rfl
    | put name content overwrite =>
      have hp := Tree.get?_place (.file ⟨host.tree.freshId, Utf8.encode content, host.now⟩)
        h.opens.directory (h.kept (key name)).ne_directory loc
      exact hp.trans (if_neg hl)
    | delete name =>
      exact (Tree.get?_detach (h.kept (key name)).ne_directory loc).trans (if_neg hl)

/-- What the map says of a call that comes after this past. -/
structure AnswersAsMap (store : Documents) (home : Location) (host : Host) (past : History)
    (call : Call) : Prop where
  answer : (store.act call host).1 = store.expected host past call
  /-- A call that is refused changes nothing. -/
  refused : ∀ e, (store.act call host).1 = .error e → (store.act call host).2.tree = host.tree
  /-- Otherwise a get leaves the tree, a put places its file, and a delete takes it away. -/
  done : ∀ value, (store.act call host).1 = .ok value →
    (store.act call host).2.tree = call.tree home host
  /-- No call changes more than the entry of its key. -/
  elsewhere : ∀ loc, loc ≠ fileName call.name :: home →
    (store.act call host).2.tree.get? loc = host.tree.get? loc
  /-- With a file's path, nothing is wrong but a zero byte in the key or a length. -/
  file : store.fileRefusal? call.name =
    if (fileName call.name).contains 0 then some (.ofFile .zeroInPath)
    else if Path.limit < (store.root.child (fileName call.name)).length ∨
      Tree.nameLimit < (fileName call.name).length then some (.ofFile .nameTooLong)
    else none
  /-- With the path of the hidden file beside it, nothing is wrong but its length. -/
  hidden : store.hiddenRefusal? host =
    if Path.limit < ((store.root.child (fileName call.name)).sibling host.hidden).length then
      some (.ofFile .nameTooLong)
    else none
  /-- Every key that is bound has a file with its text. -/
  kept : ∀ k, Tree.Kept (bound past k) (host.tree.get? (Utf8.encode k :: home))
  /-- Nothing else is there. -/
  only : ∀ n, host.tree.get? (n :: home) ≠ none → ∃ k, n = Utf8.encode k ∧ bound past k ≠ none

/-- **The documents are a map from keys to texts**, whatever calls were made before. -/
theorem answersAsMap_of_reached (h : Reached store.act store.root home host past) (call : Call) :
    store.AnswersAsMap home host past call := by
  have hm := mirrors_of_reached h
  have hends := (store.act_ends hm.keeps call).cases
  constructor
  case answer =>
    unfold expected
    rcases hends with ⟨e, hr, ha, _⟩ | ⟨hr, ha, _⟩
    · rw [ha, hr]
    · rw [ha, hr]
  case refused =>
    intro e he
    rcases hends with ⟨_, _, _, ht⟩ | ⟨_, ha, _⟩
    · exact ht
    · rw [ha] at he
      cases he
  case done =>
    intro value hv
    rcases hends with ⟨_, _, ha, _⟩ | ⟨_, _, ht⟩
    · rw [ha] at hv
      cases hv
    · exact ht
  case elsewhere =>
    intro loc hl
    exact get?_act hm.keeps call hl
  case file =>
    rw [fileRefusal?, Path.refusal?, hm.keeps.hasZero, Bool.false_or]
    split
    · rfl
    · split <;> rfl
  case hidden =>
    rw [hiddenRefusal?, host.refusal?_hidden hm.keeps.hasZero, Path.sibling_child]
    split <;> rfl
  case kept => exact hm.keeps.kept
  case only =>
    intro n hn
    obtain ⟨k, text, _, hk, hb, _⟩ := hm.keeps.entry hn
    exact ⟨k, hk, by rw [hb]; simp⟩

/-- What was put under one name of a document is there under the other. -/
theorem answersAsMap_alias :
    let store : Documents := ⟨.winding 0⟩
    let call : Call := .put "a" "x" false
    Reached store.act store.root [[0x64]] (store.act call .fresh).2
        [(call, (store.act call .fresh).1)] ∧
      store.expected (store.act call .fresh).2 [(call, (store.act call .fresh).1)]
        (.get "a.txt") = .ok (some "x") ∧
      store.AnswersAsMap [[0x64]] (store.act call .fresh).2 [(call, (store.act call .fresh).1)]
        (.get "a.txt") := by
  intro store call
  have h : Reached store.act store.root [[0x64]] (store.act call .fresh).2
      [(call, (store.act call .fresh).1)] :=
    .call (.start (Host.opensEmpty_fresh (by decide))) call
  exact ⟨h, rfl, answersAsMap_of_reached h (.get "a.txt")⟩

/-- A root can be opened by a path so long that its files have none that would be short enough. -/
theorem put_refused_below_winding :
    Host.fresh.tree.OpensEmpty (.winding 2045) [[0x64]] ∧
      Identifier.isDocumentName "notes" = true ∧ '\x00' ∉ (key "notes").toList ∧
      (fileName "notes").length ≤ Tree.nameLimit ∧
      (act ⟨.winding 2045⟩ (.put "notes" "x" true) .fresh).1 =
        .error (.storage "File name too long (os error 36)") := by
  have ho : Host.fresh.tree.OpensEmpty (.winding 2045) [[0x64]] :=
    Host.opensEmpty_fresh (by rw [Path.length_winding]; decide)
  refine ⟨ho, by decide, by decide +kernel, by decide +kernel, ?_⟩
  have hr : refusal? ⟨.winding 2045⟩ .fresh (fun _ => none) (.put "notes" "x" true) =
      some (.ofFile .nameTooLong) := by decide +kernel
  exact act_refused ho.keeps hr

end LineStore.Documents
