import LineStore.Proofs.Files.Hidden

/-!
# A root as a map from names to texts

The documents and the settings are kept in the same way: each text in one file, directly under a
root, under a name that does not start with a dot. `Keeps` says that a root is in that state and
which text stands under which name; it is the **abstraction** under which a store is a map. Its
operations are one lemma each: a name is read (`readText?_child`), written (`writeAtomic_eq` and
`place`) and removed (`detach`), and nothing of how files come to be is left to say after that.
-/

namespace LineStore

namespace Tree

variable {tree : Tree} {root : Path} {home loc : Location} {n : Name} {node : Node}
  {text? : Option String} {texts : String → Option String} {key : String}

/-! ## One entry -/

/-- What stands at an entry is a file with this text, or nothing where there is no text. -/
inductive Kept : Option String → Option Node → Prop
  | vacant : Kept none none
  | file {text : String} {file : File} (h : file.bytes = Utf8.encode text) :
      Kept (some text) (some (.file file))

theorem Kept.ne_link {entry : Option Node} (h : Kept text? entry) (target : Bytes) :
    entry ≠ some (.link target) := by
  cases h <;> simp

theorem Kept.ne_directory {entry : Option Node} (h : Kept text? entry) :
    entry ≠ some .directory := by
  cases h <;> simp

theorem Kept.eq_none {entry : Option Node} (h : Kept none entry) : entry = none := by
  cases h
  rfl

theorem Opens.readText?_child (h : tree.Opens root home)
    (hk : Kept text? (tree.get? (n :: home))) :
    tree.readText? (root.child n) =
      match root.refusal? n with
      | some e => .error e
      | none => .ok text? := by
  rw [readText?, readBytes, h.follow_child hk.ne_link]
  cases hr : root.refusal? n with
  | some e => rcases Path.refusal_cases hr with rfl | rfl <;> rfl
  | none =>
    generalize tree.get? (n :: home) = entry at hk
    cases hk with
    | vacant => rfl
    | @file text file hb =>
      dsimp only
      rw [hb, Utf8.decode?_encode]

theorem Opens.fileExists_child (h : tree.Opens root home)
    (hk : Kept text? (tree.get? (n :: home))) :
    tree.fileExists (root.child n) =
      match root.refusal? n with
      | some e => .error e
      | none => .ok text?.isSome := by
  rw [fileExists, h.follow_child hk.ne_link]
  cases hr : root.refusal? n with
  | some e => rcases Path.refusal_cases hr with rfl | rfl <;> rfl
  | none =>
    generalize tree.get? (n :: home) = entry at hk
    cases hk <;> rfl

theorem Opens.unlink_kept (h : tree.Opens root home) (hk : Kept text? (tree.get? (n :: home))) :
    tree.unlink (root.child n) =
      match root.refusal? n with
      | some e => .error e
      | none => if text?.isSome then .ok (tree.detach (n :: home)) else .error .absent := by
  rw [h.unlink_child]
  cases hr : root.refusal? n with
  | some e => rfl
  | none =>
    generalize tree.get? (n :: home) = entry at hk
    cases hk <;> rfl

/-! ## The whole root -/

/-- The path leads to a directory that exists and holds nothing. -/
structure OpensEmpty (tree : Tree) (root : Path) (home : Location) : Prop where
  follow : tree.follow root = .ok (home, .directory)
  directory : tree.get? home = some .directory
  empty : ∀ n, tree.get? (n :: home) = none

/-- Under the root, each name has the file with its text, and there is nothing else. -/
structure Keeps (tree : Tree) (root : Path) (home : Location) (texts : String → Option String) :
    Prop where
  opens : tree.Opens root home
  sound : root.fault? = none
  kept : ∀ key, Kept (texts key) (tree.get? (Utf8.encode key :: home))
  only : ∀ n, tree.get? (n :: home) ≠ none → ∃ key, n = Utf8.encode key
  visible : ∀ key, texts key ≠ none → key.toList.head? ≠ some '.'

theorem OpensEmpty.keeps (h : tree.OpensEmpty root home) : tree.Keeps root home fun _ => none where
  opens := .of_follow h.follow h.directory
  sound := (walk_of_follow h.follow).1
  kept key := by rw [h.empty]; exact .vacant
  only n hn := absurd (h.empty n) hn
  visible _ hn := absurd rfl hn

theorem Keeps.hasZero (h : tree.Keeps root home texts) : root.hasZero = false :=
  (Path.fault?_eq_none_iff.1 h.sound).1

/-- Under a root there are the files with the texts, and no other entry. -/
theorem Keeps.entry (h : tree.Keeps root home texts) (hn : tree.get? (n :: home) ≠ none) :
    ∃ key text file, n = Utf8.encode key ∧ texts key = some text ∧
      tree.get? (n :: home) = some (.file file) ∧ file.bytes = Utf8.encode text := by
  obtain ⟨key, rfl⟩ := h.only n hn
  have hk := h.kept key
  cases ht : texts key with
  | none =>
    rw [ht] at hk
    exact absurd hk.eq_none hn
  | some text =>
    rw [ht] at hk
    generalize tree.get? (Utf8.encode key :: home) = entry at hk ⊢
    cases hk with
    | @file text file hb => exact ⟨key, text, file, rfl, ht, rfl, hb⟩

/-- An entry that changes from one file, or none, to another, or none, is on no trail. -/
theorem keepsWays_of_eq_off {other : Tree} (hv : ∀ at', at' ≠ loc → other.get? at' = tree.get? at')
    (hk : Kept text? (tree.get? loc)) : tree.KeepsWays other := by
  intro at' node hf hg
  rw [hv, hg]
  rintro rfl
  rw [hg] at hk
  cases hk
  exact hf _ rfl

theorem Keeps.detach (h : tree.Keeps root home texts) (key : String) :
    (tree.detach (Utf8.encode key :: home)).Keeps root home
      fun other => if other = key then none else texts other := by
  have hv := get?_detach (h.kept key).ne_directory
  constructor
  case opens =>
    refine h.opens.mono (keepsWays_of_eq_off (fun loc hl => ?_) (h.kept key)) detach_cwd
    rw [hv, if_neg hl]
  case sound => exact h.sound
  case kept =>
    intro other
    rw [hv]
    by_cases ho : other = key
    · rw [if_pos ho, if_pos (by rw [ho])]
      exact .vacant
    · rw [if_neg ho, if_neg fun he => ho (Utf8.encode_injective (List.cons.inj he).1)]
      exact h.kept other
  case only =>
    intro n hn
    rw [hv] at hn
    split at hn
    · exact absurd rfl hn
    · exact h.only n hn
  case visible =>
    intro other hn
    split at hn
    · exact absurd rfl hn
    · exact h.visible other hn

theorem Keeps.place {text : String} {file : File} (h : tree.Keeps root home texts)
    (hb : file.bytes = Utf8.encode text) (hd : key.toList.head? ≠ some '.') :
    (tree.place home (Utf8.encode key) (.file file)).Keeps root home
      fun other => if other = key then some text else texts other := by
  have hv := get?_place (.file file) h.opens.directory (h.kept key).ne_directory
  constructor
  case opens =>
    refine h.opens.mono (keepsWays_of_eq_off (fun loc hl => ?_) (h.kept key)) place_cwd
    rw [hv, if_neg hl]
  case sound => exact h.sound
  case kept =>
    intro other
    rw [hv]
    by_cases ho : other = key
    · rw [if_pos ho, if_pos (by rw [ho])]
      exact .file hb
    · rw [if_neg ho, if_neg fun he => ho (Utf8.encode_injective (List.cons.inj he).1)]
      exact h.kept other
  case only =>
    intro n hn
    rw [hv] at hn
    split at hn
    · exact ⟨key, (List.cons.inj ‹_›).1⟩
    · exact h.only n hn
  case visible =>
    intro other hn
    split at hn
    · rename_i ho
      rw [ho]
      exact hd
    · exact h.visible other hn

end Tree

namespace Host

variable {host : Host} {root : Path} {home : Location} {texts : String → Option String}
  {key : String}

theorem get?_hidden (h : host.tree.Keeps root home texts) :
    host.tree.get? (host.hidden :: home) = none := by
  have hk := h.kept (String.ofList (hiddenChars host.process host.writes))
  rw [← hidden_eq] at hk
  cases ht : texts (String.ofList (hiddenChars host.process host.writes)) with
  | none =>
    rw [ht] at hk
    exact hk.eq_none
  | some text =>
    have := h.visible _ (by rw [ht]; simp)
    rw [String.toList_ofList] at this
    exact absurd rfl this

/-- What keeps a text from being written under a name. -/
def writeRefusal? (host : Host) (root : Path) (texts : String → Option String) (key : String)
    (mode : WriteMode) : Option FileError :=
  ((root.trim.refusal? host.hidden).or (root.refusal? (Utf8.encode key))).or
    (if mode = .createNew ∧ (texts key).isSome then some .occupied else none)

theorem writeAtomic_eq (h : host.tree.Keeps root home texts) (hd : key.toList.head? ≠ some '.')
    (content : Bytes) (mode : WriteMode) :
    host.writeAtomic (root.child (Utf8.encode key)) content mode =
      match host.writeRefusal? root texts key mode with
      | some e =>
        (.error e, host.wrote (host.prepare (root.child (Utf8.encode key)) content mode) host.tree)
      | none =>
        (.ok (), host.wrote (host.prepare (root.child (Utf8.encode key)) content mode)
          (host.tree.place home (Utf8.encode key)
            (.file ⟨host.tree.freshId, content, host.now⟩))) := by
  have ho : AtomicWrite.obstacle? mode (host.tree.get? (Utf8.encode key :: home)) =
      if mode = .createNew ∧ (texts key).isSome then some .occupied else none := by
    have hk := h.kept key
    generalize texts key = text? at hk ⊢
    generalize host.tree.get? (Utf8.encode key :: home) = entry at hk ⊢
    cases hk <;> cases mode <;> rfl
  have hw := writeAtomic_child h.opens (get?_hidden h) (hidden_ne_encode host hd) content mode
  rw [AtomicWrite.hindrance?, ho] at hw
  exact hw

end Host
end LineStore
