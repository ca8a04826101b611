import Mathlib.Control.Monad.Basic
import LineStore.Proofs.Documents.Listed
import LineStore.Proofs.Files.Made
import LineStore.Proofs.Settings.Map
import LineStore.Service

/-!
# The shape of the roots

Commands only ever put files of one kind under a root, and take them away: under the documents'
those with the names of documents, under the settings' those of accepted settings, all JSON. Each
store by itself keeps its root in step with its past, and the calls of the other one happen
elsewhere (`Undisturbed`), as long as no root is inside another. So `Stores.Shape` holds of every
world that commands lead to, once it holds of the first.

The first is where it can fail. Making the roots makes all directories **on the way** to them, and a
path that turns back may lead through a directory inside a root, which then is there for good.
`shape_iff` says that this is the only way.
-/

namespace LineStore

open LineStore.Tree

variable {host : Host} {tree after : Tree} {root other : Path} {home there loc : Location}
  {n : Name} {text? : Option String} {texts : String → Option String}

/-- A file that comes or goes in one directory is no concern of another one. -/
theorem Undisturbed.of_eq_off (hv : ∀ loc, loc ≠ n :: home → after.get? loc = tree.get? loc)
    (hk : Kept text? (tree.get? (n :: home))) (hc : after.cwd = tree.cwd)
    (ho : tree.Opens other there) (hn : there ≠ home) : Undisturbed other there tree after := by
  refine ⟨ho.mono (keepsWays_of_eq_off hv hk) hc, fun m => hv _ fun he => ?_⟩
  exact hn (List.cons.inj he).2

/-- Under a root that is kept nothing has a hidden name, whoever would make it. -/
theorem Tree.Keeps.get?_hiddenName (h : tree.Keeps root home texts) (process : UInt32)
    (writes : UInt64) : tree.get? (Host.hiddenName process writes :: home) = none := by
  have hg : ∀ host : Host, host.tree = tree → tree.get? (host.hidden :: home) = none := by
    rintro host rfl
    exact Host.get?_hidden h
  exact hg ⟨tree, 0, process, writes, fun _ => 0⟩ rfl

/-! ## The documents beside others -/

theorem Documents.cwd_act {store : Documents} (h : host.tree.Keeps store.root home texts)
    (call : Documents.Call) : (store.act call host).2.tree.cwd = host.tree.cwd := by
  rcases (store.act_ends h call).cases with ⟨e, _, _, ht⟩ | ⟨_, _, ht⟩
  · rw [ht]
  · rw [ht]
    cases call with
    | get name => rfl
    | put name content overwrite => exact place_cwd
    | delete name => exact detach_cwd

/-! ## The settings beside others -/

namespace Settings

variable {σ : Type} {store : Settings} {sink : Sink σ}

theorem cwd_act (h : host.tree.Keeps store.root home texts) (call : Call σ) :
    (store.act sink call host).2.tree.cwd = host.tree.cwd := by
  have hends : Ends _ _ _ host (store.act sink call host) := act_ends h call
  rcases hends.cases with ⟨e, _, _, ht⟩ | ⟨_, _, ht⟩
  · rw [ht]
  · rw [ht]
    cases call with
    | load key level => rfl
    | save key level content client state => exact place_cwd

theorem get?_act (h : host.tree.Keeps store.root home texts) (call : Call σ)
    (hl : loc ≠ fileName call.key call.level :: home) :
    (store.act sink call host).2.tree.get? loc = host.tree.get? loc := by
  have hends : Ends _ _ _ host (store.act sink call host) := act_ends h call
  rcases hends.cases with ⟨e, _, _, ht⟩ | ⟨_, _, ht⟩
  · rw [ht]
  · rw [ht]
    cases call with
    | load key level => rfl
    | save key level content client state =>
      have hp := get?_place (.file ⟨host.tree.freshId, Utf8.encode content, host.now⟩)
        h.opens.directory (h.kept (fileText key level)).ne_directory loc
      exact hp.trans (if_neg hl)

/-- What a setting is that is kept under the text of a file's name. -/
structure Held (store : Settings) (t text key level : String) : Prop where
  isKey : Identifier.isKey key = true
  isLevel : Identifier.isKey level = true
  file : t = fileText key level
  json : Json.check text.toList = .ok ()
  named : store.root.refusal? (fileName key level) = none

theorem held_of_refusal? {key level content client : String} {state : σ}
    (h : store.refusal? host texts (.save key level content client state) = none) :
    store.Held (fileText key level) content key level := by
  obtain ⟨hk, hl⟩ := accepted_of_refusal? h
  have hk : Identifier.isKey key = true := hk
  have hl : Identifier.isKey level = true := hl
  rw [refusal?, Call.key, Call.level, hk, hl, if_neg (by simp), if_neg (by simp), cause?,
    Option.or_eq_none_iff] at h
  obtain ⟨hc, hr⟩ := h
  refine ⟨hk, hl, rfl, ?_, (Option.or_eq_none_iff.1 (Option.map_eq_none_iff.1 hr)).2⟩
  unfold contentRefusal? at hc
  split at hc
  case isTrue => cases hc
  case isFalse =>
    unfold checkContent at hc
    cases hj : Json.check content.toList with
    | ok _ => rfl
    | error fault =>
      rw [hj] at hc
      cases hc

/-- **What is kept went through the checks.** -/
theorem held_of_reached {past : History σ} {t text : String}
    (h : Reached (store.act sink) store.root home host past) (ht : bound past t = some text) :
    ∃ key level, store.Held t text key level := by
  induction h with
  | start h => cases ht
  | meanwhile _ _ ih => exact ih ht
  | @call host past hr c ih =>
    have hends : Ends _ _ _ host (store.act sink c host) := act_ends (keeps_of_reached hr) c
    rcases hends.cases with ⟨e, _, ha, _⟩ | ⟨hn, ha, _⟩
    · rw [ha] at ht
      exact ih ht
    · rw [ha] at ht
      cases c with
      | load key level => exact ih ht
      | save key level content client state =>
        change (if t = fileText key level then some content else bound past t) = some text at ht
        split at ht
        case isTrue he =>
          cases ht
          rw [he]
          exact ⟨key, level, held_of_refusal? hn⟩
        case isFalse => exact ih ht

end Settings

/-! ## Roots -/

/-- Neither of two locations is the other one, or inside it. -/
def Location.Apart (a b : Location) : Prop := ¬ a <:+ b ∧ ¬ b <:+ a

theorem Location.Apart.ne {a b : Location} (h : a.Apart b) : a ≠ b := by
  rintro rfl
  exact h.1 (List.suffix_refl a)

theorem Location.Apart.not_suffix_cons {a b : Location} (h : a.Apart b) (n : Name) :
    ¬ b <:+ n :: a := by
  intro hs
  rcases List.suffix_cons_iff.1 hs with rfl | hs
  · exact h.1 (List.suffix_cons n a)
  · exact h.2 hs

/-- Where the three roots are. -/
structure Homes where
  documents : Location
  settings : Location
  dictionaries : Location

/-- No root is another one, or inside it. -/
structure Homes.Apart (homes : Homes) : Prop where
  stores : homes.documents.Apart homes.settings
  documents : homes.documents.Apart homes.dictionaries
  settings : homes.settings.Apart homes.dictionaries

namespace Stores

def roots (stores : Stores) : List Path :=
  [stores.documents.root, stores.settings.root, stores.dictionaries.root]

/-- The roots lead to directories. -/
structure At (stores : Stores) (tree : Tree) (homes : Homes) : Prop where
  documents : tree.follow stores.documents.root = .ok (homes.documents, .directory)
  settings : tree.follow stores.settings.root = .ok (homes.settings, .directory)
  dictionaries : tree.follow stores.dictionaries.root = .ok (homes.dictionaries, .directory)

/-- The worlds that commands lead to. Meanwhile time goes by, and others listen. -/
inductive Came (stores : Stores) (begun : World) : World → Prop
  | start : Came stores begun begun
  | handle {world : World} (h : Came stores begun world) (command : Command)
      (body : Option String) : Came stores begun (stores.handle command body world).2
  | meanwhile {world later : World} (h : Came stores begun world)
      (ht : later.host.tree = world.host.tree) : Came stores begun later

/-- What the roots look like, if `begun` is the tree that commands started with. -/
structure Shape (stores : Stores) (homes : Homes) (begun : Tree) (world : World) : Prop where
  /-- Among the documents there are only files, and those of accepted names. -/
  documents : ∀ n node, world.host.tree.get? (n :: homes.documents) = some node →
    ∃ name stem file, Identifier.isDocumentName name = true ∧ n = Documents.fileName name ∧
      n = Utf8.encode (stem ++ Documents.extension) ∧ node = .file file
  /-- Among the settings there are only files, those of accepted keys and levels, all JSON. -/
  settings : ∀ n node, world.host.tree.get? (n :: homes.settings) = some node →
    ∃ key level file text, Identifier.isKey key = true ∧ Identifier.isKey level = true ∧
      n = Settings.fileName key level ∧ node = .file file ∧ file.bytes = Utf8.encode text ∧
      Json.check text.toList = .ok ()
  /-- There are no hidden files in either. -/
  unhidden : ∀ process writes, ∀ home ∈ [homes.documents, homes.settings],
    world.host.tree.get? (Host.hiddenName process writes :: home) = none
  dictionaries : ∀ loc, homes.dictionaries <:+ loc → world.host.tree.get? loc = begun.get? loc
  list : ∀ options body, (stores.handle (.list options) body world).1.status = .success
  get : ∀ name body, Identifier.isDocumentName name = true →
    world.host.tree.get? (Documents.fileName name :: homes.documents) ≠ none →
    (stores.handle (.get name) body world).1.status = .success
  load : ∀ key level body, Identifier.isKey key = true → Identifier.isKey level = true →
    world.host.tree.get? (Settings.fileName key level :: homes.settings) ≠ none →
    (stores.handle (.getSettings key level) body world).1.status = .success
  /-- What is handed out of the settings is JSON. -/
  json : ∀ key level body text,
    (stores.handle (.getSettings key level) body world).1.payload = some text →
    Json.check text.toList = .ok ()

variable {stores : Stores} {homes : Homes} {begun world : World}

/-- What commands leave of two roots that were empty, and of the third. -/
structure Lives (stores : Stores) (homes : Homes) (begun world : World) : Prop where
  documents : ∃ past, Reached stores.documents.act stores.documents.root homes.documents
    world.host past
  settings : ∃ past, Reached (stores.settings.act Ring.sink) stores.settings.root homes.settings
    world.host past
  dictionaries : ∀ loc, homes.dictionaries <:+ loc →
    world.host.tree.get? loc = begun.host.tree.get? loc

theorem Lives.put (h : Lives stores homes begun world) (hx : homes.Apart) (call : Documents.Call)
    {events : Ring} :
    Lives stores homes begun ⟨(stores.documents.act call world.host).2, events⟩ := by
  obtain ⟨⟨past, hd⟩, ⟨past', hs⟩, ht⟩ := h
  have hk := (Documents.mirrors_of_reached hd).keeps
  have hv : ∀ loc, loc ≠ Documents.fileName call.name :: homes.documents →
      (stores.documents.act call world.host).2.tree.get? loc = world.host.tree.get? loc :=
    fun _ hl => Documents.get?_act hk call hl
  refine ⟨⟨_, .call hd call⟩, ⟨past', .meanwhile hs ?_⟩, fun loc hl => ?_⟩
  · exact .of_eq_off hv (hk.kept (Documents.key call.name)) (Documents.cwd_act hk call)
      (Settings.keeps_of_reached hs).opens hx.stores.ne.symm
  · rw [← ht loc hl]
    refine hv loc ?_
    rintro rfl
    exact hx.documents.not_suffix_cons _ hl

theorem Lives.save (h : Lives stores homes begun world) (hx : homes.Apart)
    (call : Settings.Call Ring) {events : Ring} :
    Lives stores homes begun ⟨(stores.settings.act Ring.sink call world.host).2, events⟩ := by
  obtain ⟨⟨past, hd⟩, ⟨past', hs⟩, ht⟩ := h
  have hk := Settings.keeps_of_reached hs
  have hv : ∀ loc, loc ≠ Settings.fileName call.key call.level :: homes.settings →
      (stores.settings.act Ring.sink call world.host).2.tree.get? loc = world.host.tree.get? loc :=
    fun _ hl => Settings.get?_act hk call hl
  refine ⟨⟨past, .meanwhile hd ?_⟩, ⟨_, .call hs call⟩, fun loc hl => ?_⟩
  · exact .of_eq_off hv (hk.kept (Settings.fileText call.key call.level))
      (Settings.cwd_act hk call) (Documents.mirrors_of_reached hd).keeps.opens hx.stores.ne
  · rw [← ht loc hl]
    refine hv loc ?_
    rintro rfl
    exact hx.settings.not_suffix_cons _ hl

theorem Lives.meanwhile (h : Lives stores homes begun world) {later : World}
    (ht : later.host.tree = world.host.tree) : Lives stores homes begun later := by
  obtain ⟨⟨past, hd⟩, ⟨past', hs⟩, hloc⟩ := h
  refine ⟨⟨past, .meanwhile hd ⟨?_, fun n => by rw [ht]⟩⟩,
    ⟨past', .meanwhile hs ⟨?_, fun n => by rw [ht]⟩⟩, fun loc hl => by rw [ht, hloc loc hl]⟩
  · rw [ht]
    exact (Documents.mirrors_of_reached hd).keeps.opens
  · rw [ht]
    exact (Settings.keeps_of_reached hs).opens

/-- **Commands keep the roots apart**, and each root as its own store would. -/
theorem lives_of_came (hx : homes.Apart)
    (hd : begun.host.tree.OpensEmpty stores.documents.root homes.documents)
    (hs : begun.host.tree.OpensEmpty stores.settings.root homes.settings)
    (h : Came stores begun world) : Lives stores homes begun world := by
  induction h with
  | start => exact ⟨⟨[], .start hd⟩, ⟨[], .start hs⟩, fun _ _ => rfl⟩
  | meanwhile _ ht ih => exact ih.meanwhile ht
  | handle _ command body ih =>
    cases command with
    | putSettings key level client length => exact ih.save hx (.save key level _ client _)
    | put name overwrite length => exact ih.put hx (.put name _ overwrite)
    | delete name => exact ih.put hx (.delete name)
    | _ => exact ih

/-! ## From the past to the shape -/

theorem get_ok_of_mirrors {store : Documents} {past : Documents.History} {name : String}
    (h : store.Mirrors home host past) (hn : Identifier.isDocumentName name = true)
    (hg : host.tree.get? (Documents.fileName name :: home) ≠ none) :
    ∃ text, store.get name host.tree = .ok text := by
  obtain ⟨other, text, _, _, he, hr, ht, _⟩ := h.entry hg
  have hk : Documents.key name = Documents.key other := Utf8.encode_injective he
  have hf : store.fileRefusal? name = none := by
    rw [Documents.fileRefusal?, hr]
    rfl
  have ha : store.refusal? host (Documents.bound past) (.get name) = none := by
    rw [Documents.refusal?, Documents.Call.name, if_pos hn, Documents.cause?, hf, hk, ht]
    rfl
  have hget := Documents.get_eq h.keeps name
  rw [ha, hk, ht] at hget
  cases hs : store.get name host.tree with
  | ok text => exact ⟨text, rfl⟩
  | error e =>
    rw [hs] at hget
    cases hget

section Settings

variable {σ : Type} {store : Settings} {sink : Sink σ} {past : Settings.History σ}
  {key level text : String}

theorem load_ok_of_reached (h : Reached (store.act sink) store.root home host past)
    (hk : Identifier.isKey key = true) (hl : Identifier.isKey level = true)
    (hg : host.tree.get? (Settings.fileName key level :: home) ≠ none) :
    ∃ text, store.load key level host.tree = .ok text := by
  have hkeeps := Settings.keeps_of_reached h
  obtain ⟨t, text, _, ht, hb, _⟩ := hkeeps.entry hg
  have ht : Settings.fileText key level = t := Utf8.encode_injective ht
  obtain ⟨key', level', hheld⟩ := Settings.held_of_reached h hb
  have hr : store.root.refusal? (Settings.fileName key level) = none := by
    rw [Settings.fileName_eq, ht, hheld.file, ← Settings.fileName_eq]
    exact hheld.named
  have hload := Settings.load_eq (σ := σ) hkeeps hk hl
  rw [Settings.cause?, hr, ht, hb] at hload
  cases hs : store.load key level host.tree with
  | ok text => exact ⟨text, rfl⟩
  | error e =>
    rw [hs] at hload
    cases hload

theorem json_of_load_ok (h : Reached (store.act sink) store.root home host past)
    (ht : store.load key level host.tree = .ok text) : Json.check text.toList = .ok () := by
  have hkeys : Identifier.isKey key = true ∧ Identifier.isKey level = true := by
    unfold Settings.load Settings.path at ht
    cases hk : Identifier.isKey key with
    | false =>
      rw [hk] at ht
      cases ht
    | true =>
      cases hl : Identifier.isKey level with
      | false =>
        rw [hk, hl] at ht
        cases ht
      | true => exact ⟨rfl, rfl⟩
  have hload := Settings.load_eq (σ := σ) (Settings.keeps_of_reached h) hkeys.1 hkeys.2
  rw [ht] at hload
  split at hload
  · cases hload
  · have hb : Settings.bound past (Settings.fileText key level) = some text := by
      injection hload with hload
      exact hload.symm
    obtain ⟨_, _, hheld⟩ := Settings.held_of_reached h hb
    exact hheld.json

end Settings

theorem Lives.shape (h : Lives stores homes begun world) :
    Shape stores homes begun.host.tree world := by
  obtain ⟨⟨past, hd⟩, ⟨past', hs⟩, hloc⟩ := h
  have hm := Documents.mirrors_of_reached hd
  have hk := Settings.keeps_of_reached hs
  constructor
  case documents =>
    intro n node hg
    obtain ⟨name, text, file, hname, hn, _, _, hfile, _⟩ := hm.entry (by rw [hg]; simp)
    have hstem : ∃ stem, Documents.key name = stem ++ Documents.extension := by
      rcases Documents.key_cases name with ⟨⟨stem, hstem⟩, hkey⟩ | ⟨_, hkey⟩
      · exact ⟨stem, hkey.trans hstem⟩
      · exact ⟨name, hkey⟩
    obtain ⟨stem, hstem⟩ := hstem
    refine ⟨name, stem, file, hname, hn, ?_, Option.some.inj (hg.symm.trans hfile)⟩
    rw [hn, Documents.fileName_eq, hstem]
  case settings =>
    intro n node hg
    obtain ⟨t, text, file, hn, ht, hfile, hb⟩ := hk.entry (by rw [hg]; simp)
    obtain ⟨key, level, hheld⟩ := Settings.held_of_reached hs ht
    refine ⟨key, level, file, text, hheld.isKey, hheld.isLevel, ?_,
      Option.some.inj (hg.symm.trans hfile), hb, hheld.json⟩
    rw [hn, hheld.file, Settings.fileName_eq]
  case unhidden =>
    intro process writes home hhome
    rcases List.mem_cons.1 hhome with rfl | hhome
    · exact hm.keeps.get?_hiddenName process writes
    · rw [List.mem_singleton.1 hhome]
      exact hk.get?_hiddenName process writes
  case dictionaries => exact hloc
  case list =>
    intro options body
    show (handOut ((stores.documents.list world.host.tree).map _)).status = .success
    rw [hm.list_eq]
    rfl
  case get =>
    intro name body hn hg
    obtain ⟨text, ht⟩ := get_ok_of_mirrors hm hn hg
    show (handOut (stores.documents.get name world.host.tree)).status = .success
    rw [ht]
    rfl
  case load =>
    intro key level body hkey hlevel hg
    obtain ⟨text, ht⟩ := load_ok_of_reached hs hkey hlevel hg
    show (handOut (stores.settings.load key level world.host.tree)).status = .success
    rw [ht]
    rfl
  case json =>
    intro key level body text ht
    have ht : (handOut (stores.settings.load key level world.host.tree)).payload = some text := ht
    cases hl : stores.settings.load key level world.host.tree with
    | error e =>
      rw [hl] at ht
      cases ht
    | ok other =>
      rw [hl] at ht
      cases ht
      exact json_of_load_ok hs hl

/-! ## Making the roots -/

theorem grown_of_makeDirectories (hc : host.tree.get? host.tree.cwd = some .directory) {made : Host}
    (h : host.makeDirectories root = (.ok (), made)) :
    Grown root.ancestors host.tree made.tree ∧
      (root.isEmpty = false → ∃ home, made.tree.follow root = .ok (home, .directory)) := by
  have hg := makeDirectories_grown hc root
  have hf := fun hne => follow_of_makeDirectories_ok hc (p := root) hne
  unfold Host.makeDirectories at h
  generalize host.tree.makeDirectories root = result at h hg hf
  obtain ⟨outcome, tree⟩ := result
  cases h
  exact ⟨hg, fun hne => hf hne rfl⟩

theorem grown_follow_of_makeRoots (hc : host.tree.get? host.tree.cwd = some .directory)
    {made : Host} (h : stores.makeRoots host = (.ok (), made)) :
    Grown (stores.roots.flatMap Path.ancestors) host.tree made.tree ∧
      ∀ root ∈ stores.roots, root.isEmpty = false →
        ∃ home, made.tree.follow root = .ok (home, .directory) := by
  unfold makeRoots at h
  split at h
  · cases h
  · rename_i first hfirst
    obtain ⟨hg₁, hf₁⟩ := grown_of_makeDirectories hc hfirst
    split at h
    · cases h
    · rename_i second hsecond
      obtain ⟨hg₂, hf₂⟩ := grown_of_makeDirectories (hg₁.directory hc) hsecond
      obtain ⟨hg₃, hf₃⟩ := grown_of_makeDirectories (hg₂.directory (hg₁.directory hc)) h
      refine ⟨((hg₁.trans hg₂).trans hg₃).mono (by simp [roots]), fun root hr hne => ?_⟩
      simp only [roots, List.mem_cons, List.not_mem_nil, or_false] at hr
      rcases hr with rfl | rfl | rfl
      · obtain ⟨home, hf⟩ := hf₁ hne
        exact ⟨home, hg₃.follow (hg₂.follow hf)⟩
      · obtain ⟨home, hf⟩ := hf₂ hne
        exact ⟨home, hg₃.follow hf⟩
      · exact hf₃ hne

/-- **Making the roots adds what is on the way to them**, and leaves them there to be found. -/
theorem grown_of_makeRoots (hc : host.tree.get? host.tree.cwd = some .directory) {made : Host}
    (h : stores.makeRoots host = (.ok (), made)) :
    Grown (stores.roots.flatMap Path.ancestors) host.tree made.tree ∧
      ((∀ root ∈ stores.roots, root.isEmpty = false) → ∃ homes, stores.At made.tree homes) := by
  obtain ⟨hg, hf⟩ := grown_follow_of_makeRoots hc h
  refine ⟨hg, fun hne => ?_⟩
  have found : ∀ root ∈ stores.roots, ∃ home, made.tree.follow root = .ok (home, .directory) :=
    fun root hr => hf root hr (hne root hr)
  obtain ⟨d, hd⟩ := found stores.documents.root (by simp [roots])
  obtain ⟨s, hs⟩ := found stores.settings.root (by simp [roots])
  obtain ⟨t, ht⟩ := found stores.dictionaries.root (by simp [roots])
  exact ⟨⟨d, s, t⟩, hd, hs, ht⟩

/-- The way of a path goes through a directory inside another. -/
def Crosses (tree : Tree) (p : Path) (home : Location) : Prop :=
  ∃ q ∈ p.ancestors, ∃ n loc, tree.follow q = .ok (loc, .directory) ∧ n :: home <:+ loc

theorem opensEmpty_of_grown {base : Location} {paths : List Path}
    (hc : tree.get? tree.cwd = some .directory) (he : ∀ n, tree.get? (n :: base) = none)
    (hg : Grown paths tree after) (hf : after.follow root = .ok (home, .directory))
    (hb : base <:+ home)
    (hx : ∀ p ∈ paths, ∀ n, after.follow p ≠ .ok (n :: home, .directory)) :
    after.OpensEmpty root home := by
  refine ⟨hf, get?_of_follow (hg.directory hc) hf, fun n => ?_⟩
  cases hn : after.get? (n :: home) with
  | none => rfl
  | some node =>
    obtain ⟨p, hp, hpf⟩ := hg.new _ (get?_below_empty he n hb) (by rw [hn]; simp)
    exact absurd hpf (hx p hp n)

/-- A directory that is left inside a root spoils its shape from the beginning. -/
theorem directory_of_crosses (hc : tree.get? tree.cwd = some .directory)
    (h : Crosses tree root home) : ∃ n, tree.get? (n :: home) = some .directory := by
  obtain ⟨q, _, n, loc, hf, hs⟩ := h
  have hloc := get?_of_follow hc hf
  rcases get?_above hloc hs with he | hd
  · exact ⟨n, by rw [he]; exact hloc⟩
  · exact ⟨n, hd⟩

theorem isEmpty_ofString {text : String} (h : text ≠ "") :
    (Path.ofString text).isEmpty = false := by
  have hb : Utf8.encode text ≠ [] := fun he => h (Utf8.encode_injective (he.trans rfl))
  unfold Path.ofString Path.ofBytes Path.isEmpty
  dsimp only
  cases hs : Utf8.encode text with
  | nil => exact absurd hs hb
  | cons c rest =>
    by_cases hc : c = Segment.separator
    · simp [hc]
    · have hn : (some c == some Segment.separator) = false := by simpa using hc
      simp [hn, List.splitOnP_ne_nil]

/-- **The roots keep their shape if and only if no root's path goes through a directory inside the
documents or the settings.** The roots are made below a directory that holds nothing, they lead to
directories, and no root is inside another; then come any commands, with any bodies. -/
theorem shape_iff (config : Config) (events : Ring) {made : Host} {base : Location}
    (hne : config.documentsRoot ≠ "" ∧ config.settingsRoot ≠ "" ∧ config.dictionariesRoot ≠ "")
    (hc : host.tree.get? host.tree.cwd = some .directory)
    (he : ∀ n, host.tree.get? (n :: base) = none)
    (hm : (ofConfig config).makeRoots host = (.ok (), made)) :
    (∃ homes, (ofConfig config).At made.tree homes) ∧
      ∀ homes, (ofConfig config).At made.tree homes → homes.Apart →
        base <:+ homes.documents → base <:+ homes.settings →
          ((∀ world, (ofConfig config).Came ⟨made, events⟩ world →
            (ofConfig config).Shape homes made.tree world) ↔
          ∀ root ∈ (ofConfig config).roots, ¬ Crosses made.tree root homes.documents ∧
            ¬ Crosses made.tree root homes.settings) := by
  obtain ⟨hg, hat⟩ := grown_of_makeRoots hc hm
  have hcm := hg.directory hc
  refine ⟨hat ?_, fun homes hh hx hbd hbs => ⟨fun h root hr => ⟨?_, ?_⟩, fun h world hw => ?_⟩⟩
  · intro root hr
    simp only [roots, ofConfig, List.mem_cons, List.not_mem_nil, or_false] at hr
    rcases hr with rfl | rfl | rfl
    · exact isEmpty_ofString hne.1
    · exact isEmpty_ofString hne.2.1
    · exact isEmpty_ofString hne.2.2
  · intro hcross
    obtain ⟨n, hd⟩ := directory_of_crosses hcm hcross
    obtain ⟨_, _, _, _, _, _, hfile⟩ := (h _ .start).documents n _ hd
    cases hfile
  · intro hcross
    obtain ⟨n, hd⟩ := directory_of_crosses hcm hcross
    obtain ⟨_, _, _, _, _, _, _, hfile, _⟩ := (h _ .start).settings n _ hd
    cases hfile
  · have hend : ∀ p ∈ (ofConfig config).roots.flatMap Path.ancestors, ∀ n,
        made.tree.follow p ≠ .ok (n :: homes.documents, .directory) ∧
          made.tree.follow p ≠ .ok (n :: homes.settings, .directory) := by
      intro p hp n
      obtain ⟨root, hr, hq⟩ := List.mem_flatMap.1 hp
      exact ⟨fun hf => (h root hr).1 ⟨p, hq, n, _, hf, List.suffix_refl _⟩,
        fun hf => (h root hr).2 ⟨p, hq, n, _, hf, List.suffix_refl _⟩⟩
    have hd := opensEmpty_of_grown hc he hg hh.documents hbd fun p hp n => (hend p hp n).1
    have hs := opensEmpty_of_grown hc he hg hh.settings hbs fun p hp n => (hend p hp n).2
    exact (lives_of_came hx hd hs hw).shape

/-- Three roots in the directory `/d`, the first by some path. -/
def rooted (documents : String) : Config :=
  { documentsRoot := documents, settingsRoot := "/d/settings", dictionariesRoot := "/d/dict" }

/-- Where they are, if the path does not lead elsewhere. -/
def rootedHomes : Homes :=
  ⟨[Utf8.encode "docs", [0x64]], [Utf8.encode "settings", [0x64]], [Utf8.encode "dict", [0x64]]⟩

theorem rootedHomes_apart : rootedHomes.Apart := by
  constructor <;> constructor <;> decide +kernel

/-- The host on which they are made. -/
def rootedHost (documents : String) : Host := ((ofConfig (rooted documents)).makeRoots .fresh).2

theorem makeRoots_rooted (documents : String)
    (h : ((ofConfig (rooted documents)).makeRoots .fresh).1 = .ok ()) :
    (ofConfig (rooted documents)).makeRoots .fresh = (.ok (), rootedHost documents) :=
  Prod.ext h rfl

/-- A path that only leads to places no deeper than a root does not cross it. -/
theorem not_crosses_of_length {paths : List Path}
    (h : (paths.all fun p => p.ancestors.all fun q =>
      match tree.follow q with
      | .ok (loc, _) => decide (loc.length ≤ home.length)
      | .error _ => true) = true) (hr : root ∈ paths) : ¬ Crosses tree root home := by
  rintro ⟨q, hq, n, loc, hf, hs⟩
  have hq := List.all_eq_true.1 (List.all_eq_true.1 h root hr) q hq
  rw [hf] at hq
  have hle : loc.length ≤ home.length := of_decide_eq_true hq
  have hlt : home.length + 1 ≤ loc.length := hs.length_le
  omega

theorem lengths_rooted :
    ((ofConfig (rooted "/d/docs")).roots.all fun p => p.ancestors.all fun q =>
      match (rootedHost "/d/docs").tree.follow q with
      | .ok (loc, _) => decide (loc.length ≤ 2)
      | .error _ => true) = true := by
  decide +kernel

/-- The same roots after a document and a setting were put there. -/
def filled : World :=
  ((ofConfig (rooted "/d/docs")).handle (.putSettings "k" "u" "m" 1) (some "1")
    ((ofConfig (rooted "/d/docs")).handle (.put "a" false 1) (some "x")
      ⟨rootedHost "/d/docs", .ofCapacity 1⟩).2).2

theorem came_filled :
    (ofConfig (rooted "/d/docs")).Came ⟨rootedHost "/d/docs", .ofCapacity 1⟩ filled := by
  unfold filled
  exact .handle (.handle .start _ _) _ _

theorem shape_iff_filled :
    (ofConfig (rooted "/d/docs")).makeRoots .fresh = (.ok (), rootedHost "/d/docs") ∧
      ((ofConfig (rooted "/d/docs")).handle (.get "a") none filled).1.payload = some "x" ∧
      (ofConfig (rooted "/d/docs")).Shape rootedHomes (rootedHost "/d/docs").tree filled := by
  have hm := makeRoots_rooted "/d/docs" (by decide +kernel)
  have hc : Host.fresh.tree.get? Host.fresh.tree.cwd = some .directory := by decide +kernel
  have he : ∀ n, Host.fresh.tree.get? (n :: [[0x64]]) = none :=
    (Host.opensEmpty_fresh (k := 0) (by decide)).empty
  have hat : (ofConfig (rooted "/d/docs")).At (rootedHost "/d/docs").tree rootedHomes :=
    ⟨by decide +kernel, by decide +kernel, by decide +kernel⟩
  obtain ⟨-, h⟩ := shape_iff (rooted "/d/docs") (.ofCapacity 1) (by decide +kernel) hc he hm
  have h := h rootedHomes hat rootedHomes_apart (by decide +kernel) (by decide +kernel)
  refine ⟨hm, by decide +kernel, h.2 (fun root hr => ⟨?_, ?_⟩) filled came_filled⟩
  · exact not_crosses_of_length lengths_rooted hr
  · exact not_crosses_of_length lengths_rooted hr

/-- **A path that turns back leaves a directory among the documents.** -/
theorem not_shape_of_detour :
    (ofConfig (rooted "/d/docs/x/..")).makeRoots .fresh =
        (.ok (), rootedHost "/d/docs/x/..") ∧
      (ofConfig (rooted "/d/docs/x/..")).At (rootedHost "/d/docs/x/..").tree rootedHomes ∧
      rootedHomes.Apart ∧
      ¬ (ofConfig (rooted "/d/docs/x/..")).Shape rootedHomes (rootedHost "/d/docs/x/..").tree
        ⟨rootedHost "/d/docs/x/..", .ofCapacity 1⟩ := by
  have hm := makeRoots_rooted "/d/docs/x/.." (by decide +kernel)
  refine ⟨hm, ⟨by decide +kernel, by decide +kernel, by decide +kernel⟩, rootedHomes_apart,
    fun h => ?_⟩
  have hx : (rootedHost "/d/docs/x/..").tree.get? (Utf8.encode "x" :: rootedHomes.documents) =
      some .directory := by
    decide +kernel
  obtain ⟨_, _, _, _, _, _, hfile⟩ := h.documents _ _ hx
  cases hfile

end Stores

end LineStore
