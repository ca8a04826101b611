import LineStore.Proofs.Json.Form
import LineStore.Proofs.Text.Pieces
import LineStore.Protocol.Command
import LineStore.Protocol.Frame
import LineStore.Service

/-!
# Messages are single lines

A client can only tell one reply from the next if no message goes on over the end of its line, and
none looks like the line that announces a payload (`Reply.Plain`). Messages quote what the client
sent, as it was sent, so the first half of that is a fact about where the quoted texts come from:
from the request's line, which a line break ends (`Command.oneLine_of_mem_texts`), or from wordings
of the program's own. The second half is a look at how each message begins.
-/

namespace LineStore

/-- No line ends inside the text. -/
def OneLine (s : String) : Prop := '\n' ∉ s.toList

instance (s : String) : Decidable (OneLine s) := inferInstanceAs (Decidable ('\n' ∉ s.toList))

@[simp] theorem oneLine_append {s t : String} : OneLine (s ++ t) ↔ OneLine s ∧ OneLine t := by
  rw [OneLine, String.toList_append, List.mem_append, not_or]
  exact Iff.rfl

theorem oneLine_ofList {cs : List Char} : OneLine (String.ofList cs) ↔ '\n' ∉ cs := by
  rw [OneLine, String.toList_ofList]

/-! ## The texts of a command -/

namespace Text

/-- A word goes over no line break, because a line break is blank. -/
theorem newline_not_mem_of_mem_words {s w : List Char} (h : w ∈ words s) : '\n' ∉ w := by
  intro hc
  have := not_of_mem_splitOnP (List.mem_filter.1 h).1 hc
  exact absurd this (by decide)

theorem newline_not_mem_of_cut? {sep : Char} {s before after : List Char}
    (h : cut? sep s = some (before, after)) (hs : '\n' ∉ s) : '\n' ∉ before ∧ '\n' ∉ after := by
  rw [eq_of_cut? h, List.mem_append, List.mem_cons, not_or, not_or] at hs
  exact ⟨hs.1, hs.2.2⟩

theorem newline_not_mem_cut {s : List Char} (sep : Char) (hs : '\n' ∉ s) :
    '\n' ∉ (cut sep s).1 ∧ '\n' ∉ (cut sep s).2 := by
  unfold cut
  cases h : cut? sep s with
  | none => exact ⟨hs, by simp⟩
  | some parts => exact newline_not_mem_of_cut? h hs

/-- What is left of a line whose only line break is at its end. -/
theorem newline_not_mem_dropLineEnd {s : List Char} (h : '\n' ∉ s.dropLast) :
    '\n' ∉ dropLineEnd s := by
  unfold dropLineEnd
  rw [List.mem_reverse]
  cases hs : s.reverse with
  | nil => simp
  | cons c rest =>
    have hr : '\n' ∉ rest := by
      rw [← s.reverse_reverse, hs] at h
      simpa using h
    rw [List.dropWhile_cons]
    split
    · exact fun hm => hr (List.dropWhile_sublist _ |>.subset hm)
    · rename_i hc
      rw [List.mem_cons, not_or]
      refine ⟨?_, hr⟩
      rintro rfl
      exact hc (by decide)

end Text

namespace Command

/-- The texts that a command has from its line. -/
def texts : Command → List String
  | getSettings key level => [key, level]
  | putSettings key level client _ => [key, level, client]
  | data type source => [type, source]
  | get name | put name _ _ | delete name => [name]
  | _ => []

variable {arg raw : List Char}

theorem oneLine_of_parseGetSettings : ∀ text ∈ (parseGetSettings arg).texts, OneLine text := by
  have hw : ∀ w ∈ Text.words arg, OneLine (String.ofList w) := fun w h =>
    oneLine_ofList.2 (Text.newline_not_mem_of_mem_words h)
  unfold parseGetSettings
  split
  · rename_i key h
    have hd : OneLine Settings.defaultLevel := by unfold OneLine; decide +kernel
    simpa [texts, h, hd] using hw
  · rename_i key level h
    simpa [texts, h] using hw
  · simp [texts]

theorem oneLine_of_parsePutSettings : ∀ text ∈ (parsePutSettings arg).texts, OneLine text := by
  have hw : ∀ w ∈ Text.words arg, OneLine (String.ofList w) := fun w h =>
    oneLine_ofList.2 (Text.newline_not_mem_of_mem_words h)
  unfold parsePutSettings
  split
  · rename_i key level client length h
    split
    · rw [h] at hw
      simp only [List.mem_cons, List.not_mem_nil, or_false, forall_eq_or_imp, forall_eq] at hw
      simpa [texts] using ⟨hw.1, hw.2.1, hw.2.2.1⟩
    · simp [texts]
  · simp [texts]

theorem oneLine_of_parseData (h : '\n' ∉ arg) : ∀ text ∈ (parseData arg).texts, OneLine text := by
  obtain ⟨hb, ha⟩ := Text.newline_not_mem_cut ' ' h
  have ht : OneLine (if (Text.cut ' ' arg).1 = [] then Dictionaries.fileType
      else String.ofList (Text.cut ' ' arg).1) := by
    split
    · unfold OneLine; decide +kernel
    · exact oneLine_ofList.2 hb
  simpa [parseData, texts] using ⟨ht, oneLine_ofList.2 ha⟩

theorem oneLine_of_parsePut (h : '\n' ∉ arg) : ∀ text ∈ (parsePut arg).texts, OneLine text := by
  unfold parsePut
  split
  · simp [texts]
  · rename_i overwrite rest hc
    have hr := (Text.newline_not_mem_of_cut? hc h).2
    split
    · simp [texts]
    · rename_i length name hc
      split
      · simp [texts]
      · split
        · simp [texts]
        · simpa [texts] using oneLine_ofList.2 (Text.newline_not_mem_of_cut? hc hr).2

theorem oneLine_of_parseNamed (command : String → Command)
    (hc : ∀ name, (command name).texts = [name]) (h : '\n' ∉ arg) :
    ∀ text ∈ (parseNamed command arg).texts, OneLine text := by
  unfold parseNamed
  split
  · simp [texts]
  · simpa [hc] using oneLine_ofList.2 h

/-- **What a command has from a line goes over no line break.** -/
theorem oneLine_of_mem_texts (h : '\n' ∉ raw.dropLast) :
    ∀ text ∈ (parse raw).texts, OneLine text := by
  have ha := (Text.newline_not_mem_cut ' ' (Text.newline_not_mem_dropLineEnd h)).2
  unfold parse
  dsimp only
  split
  · exact oneLine_of_parseGetSettings
  · exact oneLine_of_parsePutSettings
  · exact oneLine_of_parseData ha
  · simp [texts]
  · exact oneLine_of_parseNamed _ (fun _ => rfl) ha
  · exact oneLine_of_parseNamed _ (fun _ => rfl) ha
  · exact oneLine_of_parsePut ha
  all_goals simp [texts]

end Command

/-! ## The refusals of the stores -/

namespace StoreError

/-- What the message of an error quotes. -/
def quoted : StoreError → String
  | invalidName text | invalidKey text | missingParameter text | unsupportedType text
  | invalidJson text | accessDenied text | notFound text | alreadyExists text | storage text => text
  | missingClient => ""

theorem oneLine_message {e : StoreError} (h : OneLine e.quoted) : OneLine e.message := by
  cases e with
  | missingClient => decide +kernel
  | invalidKey text | invalidJson text | notFound text | storage text =>
    exact oneLine_append.2 ⟨by decide +kernel, h⟩
  | invalidName text | missingParameter text | unsupportedType text | accessDenied text
  | alreadyExists text =>
    exact oneLine_append.2 ⟨oneLine_append.2 ⟨by decide +kernel, h⟩, by decide +kernel⟩

theorem oneLine_quoted_ofFile (e : FileError) : OneLine (ofFile e).quoted := by
  cases e <;> decide +kernel

/-- If a store refuses, then with a message of one line. -/
def Single {α : Type} (result : Except StoreError α) : Prop :=
  ∀ e, result = .error e → OneLine e.quoted

section

variable {α : Type}

@[simp] theorem single_ok (a : α) : Single (.ok a) := fun _ h => by cases h

@[simp] theorem single_error_iff {e : StoreError} :
    Single (.error e : Except StoreError α) ↔ OneLine e.quoted :=
  ⟨fun h => h e rfl, fun h _ he => by cases he; exact h⟩

end

end StoreError

open StoreError

namespace Documents

variable {store : Documents} {name : String}

theorem single_path (store : Documents) (h : OneLine name) : Single (store.path name) := by
  unfold path
  split
  · exact single_ok _
  · exact single_error_iff.2 h

theorem single_put (h : OneLine name) (content : String) (overwrite : Bool) (host : Host) :
    Single (store.put name content overwrite host).1 := by
  have hp := single_path store h
  unfold put
  split
  · rename_i e he
    exact single_error_iff.2 (hp e he)
  · split
    · exact single_error_iff.2 (oneLine_quoted_ofFile _)
    · exact single_error_iff.2 h
    · dsimp only
      split
      · exact single_ok _
      · exact single_error_iff.2 h
      · exact single_error_iff.2 (oneLine_quoted_ofFile _)

theorem single_get (h : OneLine name) (tree : Tree) : Single (store.get name tree) := by
  have hp := single_path store h
  unfold get
  split
  · rename_i e he
    exact single_error_iff.2 (hp e he)
  · split
    · exact single_ok _
    · exact single_error_iff.2 h
    · exact single_error_iff.2 (oneLine_quoted_ofFile _)

theorem single_delete (h : OneLine name) (host : Host) : Single (store.delete name host).1 := by
  have hp := single_path store h
  unfold delete
  split
  · rename_i e he
    exact single_error_iff.2 (hp e he)
  · split
    · exact single_ok _
    · exact single_error_iff.2 h
    · exact single_error_iff.2 (oneLine_quoted_ofFile _)

theorem single_list (tree : Tree) : Single (store.list tree) := by
  unfold list
  split
  · exact single_error_iff.2 (oneLine_quoted_ofFile _)
  · split
    · exact single_error_iff.2 (oneLine_quoted_ofFile _)
    · exact single_ok _

end Documents

namespace Settings

variable {store : Settings} {key level : String}

theorem single_path (store : Settings) (hk : OneLine key) (hl : OneLine level) :
    Single (store.path key level) := by
  unfold path
  split
  · exact single_error_iff.2 hk
  · split
    · exact single_error_iff.2 hl
    · exact single_ok _

/-- Whatever the text is. -/
theorem single_checkContent (content : String) : Single (checkContent content) := by
  unfold checkContent
  split
  · exact single_ok _
  · rename_i fault he
    exact single_error_iff.2 (Json.newline_not_mem_message (Json.formal_check _ _ he) content)

theorem single_keep (hk : OneLine key) (hl : OneLine level) (content client : String)
    (host : Host) : Single (store.keep key level content client host).1 := by
  have hp := single_path store hk hl
  have hc := single_checkContent content
  unfold keep
  split
  · rename_i e he
    exact single_error_iff.2 (hp e he)
  · split
    · exact single_error_iff.2 (by decide +kernel)
    · split
      · rename_i e he
        exact single_error_iff.2 (hc e he)
      · split
        · exact single_ok _
        · exact single_error_iff.2 (oneLine_quoted_ofFile _)

theorem single_save {σ : Type} (hk : OneLine key) (hl : OneLine level) (sink : Sink σ)
    (content client : String) (host : Host) (state : σ) :
    Single (store.save sink key level content client host state).1 := by
  have hs : Single (store.keep key level content client host).1 :=
    single_keep hk hl content client host
  unfold save
  split
  · exact single_ok _
  · rename_i e _ he
    exact single_error_iff.2 (hs e (congrArg Prod.fst he))

theorem single_load (hk : OneLine key) (hl : OneLine level) (tree : Tree) :
    Single (store.load key level tree) := by
  have hp := single_path store hk hl
  unfold load
  split
  · rename_i e he
    exact single_error_iff.2 (hp e he)
  · split
    · exact single_ok _
    · exact single_error_iff.2
        (oneLine_append.2 ⟨oneLine_append.2 ⟨hl, by decide +kernel⟩, hk⟩)
    · exact single_error_iff.2 (oneLine_quoted_ofFile _)

end Settings

theorem Dictionaries.single_fetch {store : Dictionaries} {type source : String}
    (ht : OneLine type) (hs : OneLine source) (tree : Tree) :
    Single (store.fetch type source tree) := by
  unfold fetch
  split
  · exact single_error_iff.2 ht
  · split
    · exact single_error_iff.2 (by decide +kernel)
    · split
      · exact single_error_iff.2 hs
      · split
        · exact single_ok _
        · exact single_error_iff.2 hs
        · exact single_error_iff.2 (oneLine_quoted_ofFile _)

/-! ## Replies -/

/-- The text begins, and not as the word does that announces a payload. -/
def Unannounced (s : String) : Prop := s.toList.head?.any (· ≠ 'D') = true

instance (s : String) : Decidable (Unannounced s) :=
  inferInstanceAs (Decidable (s.toList.head?.any (· ≠ 'D') = true))

theorem Unannounced.append {s : String} (h : Unannounced s) (t : String) :
    Unannounced (s ++ t) := by
  unfold Unannounced at h ⊢
  rw [String.toList_append, List.head?_append]
  cases hs : s.toList.head? with
  | none => rw [hs] at h; cases h
  | some c => rw [hs] at h; exact h

theorem Unannounced.payloadSize?_eq_none {s : String} (h : Unannounced s) :
    FrameLine.payloadSize? s.toList = none := by
  unfold FrameLine.payloadSize?
  split
  · rename_i word size hc
    rw [if_neg]
    rintro rfl
    unfold Unannounced at h
    rw [Text.eq_of_cut? hc] at h
    cases h
  · rfl

theorem StoreError.unannounced_message (e : StoreError) : Unannounced e.message := by
  cases e with
  | missingClient => decide +kernel
  | invalidKey text | invalidJson text | notFound text | storage text =>
    exact Unannounced.append (by decide +kernel) text
  | invalidName text | missingParameter text | unsupportedType text | accessDenied text
  | alreadyExists text =>
    exact Unannounced.append (Unannounced.append (by decide +kernel) text) _

/-- A reply without a payload has a message of one line that does not announce a payload; a reply
with a payload has no message. -/
structure Reply.Plain (reply : Reply) : Prop where
  line : reply.payload = none →
    OneLine reply.message ∧ FrameLine.payloadSize? reply.message.toList = none
  silent : reply.payload ≠ none → reply.message = ""

namespace Reply

theorem plain_mk (status : Status) (code : Nat) {message : String} (ho : OneLine message)
    (hu : Unannounced message) : Plain ⟨status, code, message, none⟩ :=
  ⟨fun _ => ⟨ho, hu.payloadSize?_eq_none⟩, fun h => absurd rfl h⟩

theorem plain_ofPayload (code : Nat) (text : String) : (ofPayload code text).Plain :=
  ⟨fun h => absurd h (Option.some_ne_none text), fun _ => rfl⟩

theorem plain_refuse {e : StoreError} (h : OneLine e.quoted) : (Stores.refuse e).Plain :=
  plain_mk _ _ (oneLine_message h) e.unannounced_message

theorem plain_handOut {result : Except StoreError String} (h : Single result) :
    (Stores.handOut result).Plain := by
  cases result with
  | ok text => exact plain_ofPayload Code.ok text
  | error e => exact plain_refuse (h e rfl)

theorem plain_replyToSave {result : Except StoreError Unit} (h : Single result) :
    (Stores.replyToSave result).Plain := by
  cases result with
  | ok _ => exact plain_mk _ _ (by decide +kernel) (by decide +kernel)
  | error e => exact plain_refuse (h e rfl)

/-- `Deleted` begins as the word that announces a payload does, and is still another word. -/
theorem plain_replyToDelete {result : Except StoreError Unit} (h : Single result) :
    (Stores.replyToDelete result).Plain := by
  cases result with
  | ok _ =>
    have hd : OneLine "Deleted" ∧ FrameLine.payloadSize? "Deleted".toList = none := by
      decide +kernel
    exact ⟨fun _ => hd, fun h => absurd rfl h⟩
  | error e => exact plain_refuse (h e rfl)

end Reply

theorem Usage.plain (usage : Usage) : (Reply.ofFailure Code.badRequest usage.text).Plain := by
  cases usage <;> exact Reply.plain_mk _ _ (by decide +kernel) (by decide +kernel)

/-- **What a command is answered is one line or a payload**, if what it has from its line is. -/
theorem Stores.plain_handle (stores : Stores) {command : Command} (body : Option String)
    (world : World) (h : ∀ text ∈ command.texts, OneLine text) :
    (stores.handle command body world).1.Plain := by
  cases command with
  | getSettings key level =>
    exact Reply.plain_handOut (Settings.single_load (h key (by simp [Command.texts]))
      (h level (by simp [Command.texts])) _)
  | putSettings key level client length =>
    exact Reply.plain_replyToSave (Settings.single_save (h key (by simp [Command.texts]))
      (h level (by simp [Command.texts])) _ _ _ _ _)
  | data type source =>
    exact Reply.plain_handOut (Dictionaries.single_fetch (h type (by simp [Command.texts]))
      (h source (by simp [Command.texts])) _)
  | list search =>
    refine Reply.plain_handOut ?_
    intro e he
    cases hl : stores.documents.list world.host.tree with
    | ok entries => rw [hl] at he; cases he
    | error e' =>
      rw [hl] at he
      cases he
      exact Documents.single_list _ e hl
  | get name =>
    exact Reply.plain_handOut (Documents.single_get (h name (by simp [Command.texts])) _)
  | put name overwrite length =>
    exact Reply.plain_handOut (Documents.single_put (h name (by simp [Command.texts])) _ _ _)
  | delete name =>
    exact Reply.plain_replyToDelete (Documents.single_delete (h name (by simp [Command.texts])) _)
  | malformed usage => exact usage.plain
  | subscribe | ready | quit | unknown =>
    exact Reply.plain_mk _ _ (by decide +kernel) (by decide +kernel)

end LineStore
