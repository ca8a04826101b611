import LineStore.Proofs.Documents.Atomic
import LineStore.Proofs.Files.Leftover
import LineStore.Proofs.Files.Shares
import LineStore.Proofs.Settings.Map
import LineStore.Service

/-!
# Two stores in one directory

The names of the documents end in one way, those of the settings in another, and hidden names start
with a dot; so whatever directories the two roots are, the two stores never come to the same entry.
A call of one of them is a few edits under its own names (`Moves`), which do not show in the other
one's share. And what it answers, and makes of its own share, depends on nothing but that share
(`agree_act`): not on the other store's files, not on the numbers of its own, and not on the count
that the hidden names are made from, as long as these are short enough or too long alike.
-/

namespace LineStore

open LineStore.Tree

/-- One of the two stores that write. -/
inductive Side
  | documents
  | settings
  deriving DecidableEq, Repr

namespace Side

def root (stores : Stores) : Side → Path
  | documents => stores.documents.root
  | settings => stores.settings.root

/-- What ends the file names of the store. -/
def extension : Side → String
  | documents => Documents.extension
  | settings => ".json"

/-- Whether a file's name is of the kind that the store uses. -/
def owns (side : Side) (n : Name) : Bool :=
  match Utf8.decode? n with
  | some text =>
    text.toList.head? ≠ some '.' && (Text.stem? side.extension.toList text.toList).isSome
  | none => false

/-- The names that a call of the store may come to. -/
def Touches (side : Side) (n : Name) : Prop :=
  side.owns n = true ∨ ∃ process count, n = Host.hiddenName process count

variable {side other : Side} {n : Name}

theorem owns_iff : side.owns n = true ↔ ∃ stem : String,
    n = Utf8.encode (stem ++ side.extension) ∧
      (stem ++ side.extension).toList.head? ≠ some '.' := by
  unfold owns
  constructor
  · intro h
    split at h
    · rename_i text hd
      rw [Bool.and_eq_true, decide_eq_true_eq, Option.isSome_iff_exists] at h
      obtain ⟨hdot, stem, hs⟩ := h
      have ht : text = String.ofList stem ++ side.extension := by
        rw [← String.toList_inj, Text.stem?_eq_some_iff.1 hs]
        simp
      refine ⟨String.ofList stem, ?_, ht ▸ hdot⟩
      rw [← ht]
      exact Utf8.decode?_eq_some_iff.1 hd
    · cases h
  · rintro ⟨stem, rfl, hdot⟩
    rw [Utf8.decode?_encode]
    have hs : Text.stem? side.extension.toList (stem ++ side.extension).toList =
        some stem.toList := Text.stem?_eq_some_iff.2 (by simp)
    dsimp only
    rw [hs, Option.isSome_some, Bool.and_true]
    exact decide_eq_true hdot

theorem owns_document {name : String} (h : Identifier.isDocumentName name = true) :
    documents.owns (Documents.fileName name) = true := by
  have hv := Documents.key_visible h
  rw [Documents.fileName_eq, owns_iff]
  rcases Documents.key_cases name with ⟨⟨stem, hstem⟩, hk⟩ | ⟨-, hk⟩
  · rw [hk, hstem] at hv ⊢
    exact ⟨stem, rfl, hv⟩
  · rw [hk] at hv ⊢
    exact ⟨name, rfl, hv⟩

theorem owns_setting {level : String} (h : Identifier.isKey level = true) (key : String) :
    settings.owns (Settings.fileName key level) = true :=
  owns_iff.2 ⟨level ++ "." ++ key, rfl, Settings.fileText_visible h key⟩

theorem owns_of_listed {name : String} (h : Documents.listedName? n = some name) :
    documents.owns n = true :=
  owns_iff.2 ⟨name, Documents.listedName?_eq_some_iff.1 h⟩

theorem not_owns_hidden (side : Side) (process : UInt32) (count : UInt64) :
    side.owns (Host.hiddenName process count) = false := by
  unfold owns Host.hiddenName
  rw [Utf8.decode?_encode]
  dsimp only
  rw [String.toList_ofList]
  rfl

theorem hidden_ne (h : side.owns n = true) (host : Host) : host.hidden ≠ n := by
  rintro rfl
  have hh := not_owns_hidden side host.process host.writes
  rw [show Host.hiddenName host.process host.writes = host.hidden from rfl, h] at hh
  cases hh

/-- The last character of a name tells the store. -/
theorem eq_of_owns (h : side.owns n = true) (h' : other.owns n = true) : side = other := by
  have last : ∀ {side : Side} {stem : String},
      (stem ++ side.extension).toList.getLast? = side.extension.toList.getLast? := by
    intro side stem
    rw [String.toList_append, List.getLast?_append]
    cases side <;> rfl
  obtain ⟨stem, hn, -⟩ := owns_iff.1 h
  obtain ⟨stem', hn', -⟩ := owns_iff.1 h'
  have he := congrArg (fun s => s.toList.getLast?) (Utf8.encode_injective (hn.symm.trans hn'))
  rw [last, last] at he
  cases side <;> cases other <;> first | rfl | (revert he; decide)

/-- **What one store comes to is none of the other's.** -/
theorem Touches.not_owns (h : side.Touches n) (hne : side ≠ other) : other.owns n = false := by
  rcases h with h | ⟨process, count, rfl⟩
  · by_contra ho
    exact hne (eq_of_owns h (by simpa using ho))
  · exact not_owns_hidden other process count

end Side

variable {stores : Stores} {homes : Side → Location} {process : UInt32} {used : UInt64 → Prop}
  {side other : Side} {host after a b : Host} {n : Name}

/-- Where the calls of both stores are made: the roots lead to directories, there are no links, and
what stands under the hidden names that may be used has no other name. -/
structure Steady (stores : Stores) (homes : Side → Location) (process : UInt32)
    (used : UInt64 → Prop) (host : Host) : Prop where
  number : host.process = process
  opens : ∀ side : Side, host.tree.Opens (side.root stores) (homes side)
  unlinked : ∀ loc target, host.tree.get? loc ≠ some (.link target)
  lone : ∀ side count, used count → host.tree.Lone (Host.hiddenName process count :: homes side)

/-- What a call of one store does to a host. -/
structure Moves (homes : Side → Location) (side : Side) (host after : Host) : Prop where
  edits : Edits (homes side) side.Touches host.tree after.tree
  number : after.process = host.process
  writes : after.writes = host.writes ∨ after.writes = host.writes + 1

theorem Moves.refl (homes : Side → Location) (side : Side) (host : Host) :
    Moves homes side host host := ⟨.refl, rfl, .inl rfl⟩

namespace Steady

variable (h : Steady stores homes process used host)

include h

theorem moves (hm : Moves homes side host after) : Steady stores homes process used after where
  number := hm.number.trans h.number
  opens other := hm.edits.opens (h.opens side).directory h.unlinked (h.opens other)
  unlinked := hm.edits.unlinked (h.opens side).directory h.unlinked
  lone other count hu := hm.edits.lone (h.opens side).directory (h.lone other count hu)

theorem later (now : Instant) : Steady stores homes process used { host with now } :=
  ⟨h.number, h.opens, h.unlinked, h.lone⟩

/-- **A call of one store does not show in the share of the other.** -/
theorem share_eq (hm : Moves homes side host after) (hne : side ≠ other) :
    after.tree.share (homes other) other.owns = host.tree.share (homes other) other.owns :=
  hm.edits.share_eq (h.opens side).directory fun _ _ hk => hk.not_owns hne

end Steady

/-! ## Writing and removing one file -/

/-- What a write makes of a share. -/
def written (n : Name) (content : Bytes) (now : Instant) (home : Location)
    (share : List (Name × Node)) : Except FileError Unit → List (Name × Node)
  | .ok () =>
    (n, .file ⟨0, content, now⟩) :: share.filter fun c => c.1 :: home ≠ n :: home
  | .error _ => share

theorem Steady.write (h : Steady stores homes process used host) (hu : used host.writes)
    (hn : side.owns n = true) (content : Bytes) (mode : WriteMode) :
    Moves homes side host (host.writeAtomic ((side.root stores).child n) content mode).2 ∧
      (host.writeAtomic ((side.root stores).child n) content mode).1 =
        (match AtomicWrite.hindrance? host.tree (side.root stores).trim (side.root stores)
            (homes side) host.hidden n mode with
          | some e => .error e
          | none => .ok ()) ∧
      (host.writeAtomic ((side.root stores).child n) content mode).2.tree.share (homes side)
          side.owns =
        written n content host.now (homes side) (host.tree.share (homes side) side.owns)
          (host.writeAtomic ((side.root stores).child n) content mode).1 := by
  have hlone : host.tree.Lone (host.hidden :: homes side) := by
    rw [Host.hidden, h.number]
    exact h.lone side _ hu
  have hne := Side.hidden_ne hn host
  have hd := (h.opens side).directory
  obtain ⟨id, base, hbase, hid, hw⟩ :=
    Host.writeAtomic_lone (h.opens side) hlone hne content mode
  have hleft : host.tree.get? (host.hidden :: homes side) ≠ some .directory := by
    intro hg
    obtain ⟨file, hf⟩ := hlone.isFile hg
    cases hf
  have hedits : Edits (homes side) side.Touches host.tree base := by
    rcases hbase with rfl | rfl
    · exact .refl
    · exact .detach .refl (.inr ⟨host.process, host.writes, rfl⟩) hleft
  have hshare : base.share (homes side) side.owns = host.tree.share (homes side) side.owns := by
    rcases hbase with rfl | rfl
    · rfl
    · refine share_detach_other hleft fun m hm => ?_
      cases hm
      exact Side.not_owns_hidden side host.process host.writes
  rw [hw]
  cases hx : AtomicWrite.hindrance? host.tree (side.root stores).trim (side.root stores)
    (homes side) host.hidden n mode with
  | some e => exact ⟨⟨hedits, rfl, .inr rfl⟩, rfl, hshare⟩
  | none =>
    have hfree : base.get? (n :: homes side) ≠ some .directory := by
      have hnone := AtomicWrite.ne_directory_of_hindrance? hx
      rcases hbase with rfl | rfl
      · exact hnone
      · rw [get?_detach hleft, if_neg (by simp [hne.symm])]
        exact hnone
    refine ⟨⟨.place hedits (.inl hn) hfree hid, rfl, .inr rfl⟩, rfl, ?_⟩
    show (base.place _ _ _).share _ _ = _
    rw [share_place (hedits.directory hd hd) hfree, if_pos ⟨rfl, hn⟩, hshare]
    rfl

/-- Two hosts that one store takes for the same. -/
structure Alike (stores : Stores) (homes : Side → Location) (process : UInt32)
    (used : UInt64 → Prop) (side : Side) (a b : Host) : Prop where
  left : Steady stores homes process used a
  right : Steady stores homes process used b
  share : a.tree.share (homes side) side.owns = b.tree.share (homes side) side.owns

/-- The hidden names that may be used are short enough, or too long, together. -/
def Even (stores : Stores) (process : UInt32) (used : UInt64 → Prop) : Prop :=
  ∀ (side : Side) (c d : UInt64), used c → used d →
    (side.root stores).trim.refusal? (Host.hiddenName process c) =
      (side.root stores).trim.refusal? (Host.hiddenName process d)

/-- Two results that one store takes for the same. -/
def Agree {α : Type} (homes : Side → Location) (side : Side) (r s : α × Host) : Prop :=
  r.1 = s.1 ∧ r.2.tree.share (homes side) side.owns = s.2.tree.share (homes side) side.owns

theorem Agree.map {α β : Type} {r s : α × Host} (f : α → β) (h : Agree homes side r s) :
    Agree homes side (f r.1, r.2) (f s.1, s.2) := ⟨congrArg f h.1, h.2⟩

theorem obstacle?_unnumbered (mode : WriteMode) (entry : Option Node) :
    AtomicWrite.obstacle? mode (entry.map Node.unnumbered) = AtomicWrite.obstacle? mode entry := by
  rcases entry with _ | (_ | _ | _) <;> cases mode <;> rfl

namespace Alike

variable (h : Alike stores homes process used side a b)

include h

theorem glance_eq (hn : side.owns n = true) :
    a.tree.glance ((side.root stores).child n) = b.tree.glance ((side.root stores).child n) :=
  glance_eq_of_share_eq (h.left.opens side) (h.right.opens side) h.left.unlinked h.right.unlinked
    h.share hn

theorem agree_write (he : Even stores process used) (hnow : a.now = b.now)
    (ha : used a.writes) (hb : used b.writes) (hn : side.owns n = true) (content : Bytes)
    (mode : WriteMode) :
    Agree homes side (a.writeAtomic ((side.root stores).child n) content mode)
      (b.writeAtomic ((side.root stores).child n) content mode) := by
  obtain ⟨-, houtcome, hshare⟩ := h.left.write ha hn content mode
  obtain ⟨-, houtcome', hshare'⟩ := h.right.write hb hn content mode
  have hhidden : (side.root stores).trim.refusal? a.hidden =
      (side.root stores).trim.refusal? b.hidden := by
    rw [Host.hidden, Host.hidden, h.left.number, h.right.number]
    exact he side _ _ ha hb
  have hsame : AtomicWrite.hindrance? a.tree (side.root stores).trim (side.root stores)
        (homes side) a.hidden n mode =
      AtomicWrite.hindrance? b.tree (side.root stores).trim (side.root stores)
        (homes side) b.hidden n mode := by
    rw [AtomicWrite.hindrance?, AtomicWrite.hindrance?, hhidden, ← obstacle?_unnumbered,
      get?_eq_of_share_eq h.share hn, obstacle?_unnumbered]
  have hequal : (a.writeAtomic ((side.root stores).child n) content mode).1 =
      (b.writeAtomic ((side.root stores).child n) content mode).1 := by
    rw [houtcome, houtcome', hsame]
  exact ⟨hequal, by rw [hshare, hshare', hequal, hnow, h.share]⟩

end Alike

/-! ## The documents -/

namespace Documents

variable {store : Documents} {name content : String} {overwrite : Bool}

/-- What a put answers to the outcome of its write. -/
def answerOf (name content : String) : Except FileError Unit → Except StoreError String
  | .ok () => .ok content
  | .error .occupied => .error (.alreadyExists name)
  | .error e => .error (.ofFile e)

theorem put_eq (hn : Identifier.isDocumentName name = true) :
    store.put name content overwrite host =
      match if overwrite then .ok false
        else host.tree.fileExists (store.root.child (fileName name)) with
      | .error e => (.error (.ofFile e), host)
      | .ok true => (.error (.alreadyExists name), host)
      | .ok false =>
        let result := host.writeAtomic (store.root.child (fileName name)) (Utf8.encode content)
          (if overwrite then .replace else .createNew)
        (answerOf name content result.1, result.2) := by
  rw [put, path_eq hn]
  dsimp only
  generalize (if overwrite = true then .ok false
    else host.tree.fileExists (store.root.child (fileName name))) = look
  rcases look with e | _ | _
  · rfl
  · generalize host.writeAtomic _ _ _ = result
    rcases result with ⟨e | _, after⟩
    · cases e <;> rfl
    · rfl
  · rfl

theorem listed?_eq_glance (store : Documents) (tree : Tree) (n : Name) :
    store.listed? tree n =
      match listedName? n with
      | none => .ok none
      | some name =>
        match tree.glance (store.root.child n) with
        | .ok (.file f) => .ok (some (f.modified, name))
        | .ok _ => .ok none
        | .error .absent => .ok none
        | .error e => .error e := by
  unfold listed? glance
  cases listedName? n with
  | none => rfl
  | some name =>
    dsimp only
    rcases tree.follow (store.root.child n) with e | ⟨loc, node⟩
    · cases e <;> rfl
    · cases node <;> rfl

end Documents

section Documents

variable (name content : String) (overwrite : Bool)

theorem Steady.moves_put (h : Steady stores homes process used host) (hu : used host.writes) :
    Moves homes .documents host (stores.documents.put name content overwrite host).2 := by
  by_cases hn : Identifier.isDocumentName name = true
  case neg =>
    rw [Documents.put, Documents.path_invalid hn]
    exact .refl ..
  case pos =>
    rw [Documents.put_eq hn]
    split
    · exact .refl ..
    · exact .refl ..
    · exact (h.write hu (Side.owns_document hn) _ _).1

theorem Steady.moves_delete (h : Steady stores homes process used host) :
    Moves homes .documents host (stores.documents.delete name host).2 := by
  by_cases hn : Identifier.isDocumentName name = true
  case neg =>
    rw [Documents.delete, Documents.path_invalid hn]
    exact .refl ..
  case pos =>
    rw [Documents.delete, Documents.path_eq hn]
    dsimp only
    split
    · rename_i hx
      obtain ⟨node, hg, hf, rfl⟩ := (h.opens .documents).unlink_ok hx
      refine ⟨.detach .refl (.inl (Side.owns_document hn)) ?_, rfl, .inl rfl⟩
      rw [hg]
      simpa using hf
    · exact .refl ..
    · exact .refl ..

namespace Alike

variable (h : Alike stores homes process used .documents a b)

include h

theorem agree_put (he : Even stores process used) (hnow : a.now = b.now)
    (ha : used a.writes) (hb : used b.writes) :
    Agree homes .documents (stores.documents.put name content overwrite a)
      (stores.documents.put name content overwrite b) := by
  by_cases hn : Identifier.isDocumentName name = true
  case neg =>
    rw [Documents.put, Documents.put, Documents.path_invalid hn]
    exact ⟨rfl, h.share⟩
  case pos =>
    have hown := Side.owns_document hn
    obtain ⟨houtcome, hshare⟩ := h.agree_write he hnow ha hb hown (Utf8.encode content)
      (if overwrite then .replace else .createNew)
    have hlook : a.tree.fileExists (stores.documents.root.child (Documents.fileName name)) =
        b.tree.fileExists (stores.documents.root.child (Documents.fileName name)) :=
      fileExists_congr (h.glance_eq hown)
    rw [Documents.put_eq hn, Documents.put_eq hn, hlook]
    split
    · exact ⟨rfl, h.share⟩
    · exact ⟨rfl, h.share⟩
    · exact ⟨congrArg (Documents.answerOf name content) houtcome, hshare⟩

theorem get_eq :
    stores.documents.get name a.tree = stores.documents.get name b.tree := by
  by_cases hn : Identifier.isDocumentName name = true
  case neg => rw [Documents.get, Documents.get, Documents.path_invalid hn]
  case pos =>
    rw [Documents.get, Documents.get, Documents.path_eq hn]
    dsimp only
    rw [show stores.documents.root = Side.documents.root stores from rfl,
      readText?_congr (h.glance_eq (Side.owns_document hn))]

theorem agree_delete : Agree homes .documents (stores.documents.delete name a)
    (stores.documents.delete name b) := by
  by_cases hn : Identifier.isDocumentName name = true
  case neg =>
    rw [Documents.delete, Documents.delete, Documents.path_invalid hn]
    exact ⟨rfl, h.share⟩
  case pos =>
    have hu : (∃ e, a.tree.unlink (stores.documents.root.child _) = .error e ∧
        b.tree.unlink (stores.documents.root.child _) = .error e) ∨ _ :=
      unlink_of_share_eq (h.left.opens .documents) (h.right.opens .documents) h.share
        (Side.owns_document hn)
    rw [Documents.delete, Documents.delete, Documents.path_eq hn]
    dsimp only
    rcases hu with ⟨e, hleft, hright⟩ | ⟨left, right, hleft, hright, hshare⟩
    · rw [hleft, hright]
      cases e <;> exact ⟨rfl, h.share⟩
    · rw [hleft, hright]
      exact ⟨rfl, hshare⟩

theorem list_eq : stores.documents.list a.tree = stores.documents.list b.tree := by
  have hlisted : ∀ tree : Tree, ((tree.children (homes .documents)).map (·.1)).filterMapM
      (stores.documents.listed? tree) = ((tree.share (homes .documents) Side.documents.owns).map
        (·.1)).filterMapM (stores.documents.listed? tree) := by
    intro tree
    rw [Tree.share, List.map_map]
    apply filterMapM_filter
    · intro c _ hc
      unfold Documents.listed?
      cases hn : Documents.listedName? c.1 with
      | none => rfl
      | some name =>
        rw [Side.owns_of_listed hn] at hc
        cases hc
    · intro c _ _
      rfl
  have hsame : ((a.tree.share (homes .documents) Side.documents.owns).map (·.1)).filterMapM
      (stores.documents.listed? a.tree) =
        ((a.tree.share (homes .documents) Side.documents.owns).map (·.1)).filterMapM
          (stores.documents.listed? b.tree) := by
    have hall : (a.tree.share (homes .documents) Side.documents.owns).filter (fun _ => true) =
        a.tree.share (homes .documents) Side.documents.owns := List.filter_eq_self.2 fun _ _ => rfl
    conv => rhs; rw [← hall]
    apply filterMapM_filter
    · intro _ _ hc
      cases hc
    · rintro ⟨n, x⟩ hc _
      have hlook : a.tree.glance (stores.documents.root.child n) =
          b.tree.glance (stores.documents.root.child n) := h.glance_eq (mem_share.1 hc).1
      rw [Documents.listed?_eq_glance, Documents.listed?_eq_glance, hlook]
  have hnames : ((a.tree.children (homes .documents)).map (·.1)).filterMapM
      (stores.documents.listed? a.tree) = ((b.tree.children (homes .documents)).map
        (·.1)).filterMapM (stores.documents.listed? b.tree) := by
    rw [hlisted, hsame, h.share, hlisted]
  cases hf : stores.documents.root.fault? with
  | some e =>
    have hfail : ∀ tree : Tree, tree.readDirectory stores.documents.root = .error e := by
      intro tree
      rw [readDirectory, follow, locate, hf]
      rfl
    rw [Documents.list, Documents.list, hfail, hfail]
  | none =>
    have hread : a.tree.readDirectory stores.documents.root = _ :=
      (h.left.opens .documents).readDirectory hf
    have hread' : b.tree.readDirectory stores.documents.root = _ :=
      (h.right.opens .documents).readDirectory hf
    rw [Documents.list, Documents.list, hread, hread']
    dsimp only
    rw [hnames]

end Alike

end Documents

/-! ## The settings -/

namespace Settings

variable {store : Settings} {key level content client : String}

theorem child_of_path_ok {p : Path} (h : store.path key level = .ok p) :
    Identifier.isKey level = true ∧ p = store.root.child (fileName key level) := by
  unfold path at h
  split at h
  · cases h
  split at h
  · cases h
  · rename_i hl
    cases h
    exact ⟨by simpa using hl, rfl⟩

theorem keep_eq :
    store.keep key level content client host =
      match store.path key level with
      | .error e => (.error e, host)
      | .ok path =>
        if client = "" then (.error .missingClient, host)
        else
          match checkContent content with
          | .error e => (.error e, host)
          | .ok () =>
            let result := host.writeAtomic path (Utf8.encode content) .replace
            (result.1.mapError .ofFile, result.2) := by
  unfold keep
  cases store.path key level with
  | error e => rfl
  | ok path =>
    dsimp only
    generalize host.writeAtomic path (Utf8.encode content) .replace = result
    rcases result with ⟨e | _, after⟩ <;> rfl

theorem act_save {σ : Type} (store : Settings) (sink : Sink σ) (key level content client : String)
    (state : σ) (host : Host) :
    store.act sink (.save key level content client state) host =
      ((store.keep key level content client host).1.map fun () => none,
        (store.keep key level content client host).2) := by
  obtain ⟨hanswer, hhost⟩ := save_eq_keep store sink key level content client host state
  rw [← hanswer, ← hhost]
  rfl

end Settings

section Settings

variable (key level content client : String)

theorem Steady.moves_keep (h : Steady stores homes process used host) (hu : used host.writes) :
    Moves homes .settings host (stores.settings.keep key level content client host).2 := by
  rw [Settings.keep_eq]
  split
  · exact .refl ..
  rename_i path hp
  obtain ⟨hl, rfl⟩ := Settings.child_of_path_ok hp
  split
  · exact .refl ..
  split
  · exact .refl ..
  · exact (h.write hu (Side.owns_setting hl key) _ _).1

namespace Alike

variable (h : Alike stores homes process used .settings a b)

include h

theorem agree_keep (he : Even stores process used) (hnow : a.now = b.now)
    (ha : used a.writes) (hb : used b.writes) : Agree homes .settings
      (stores.settings.keep key level content client a)
      (stores.settings.keep key level content client b) := by
  rw [Settings.keep_eq, Settings.keep_eq]
  split
  · exact ⟨rfl, h.share⟩
  rename_i path hp
  obtain ⟨hl, rfl⟩ := Settings.child_of_path_ok hp
  split
  · exact ⟨rfl, h.share⟩
  split
  · exact ⟨rfl, h.share⟩
  · obtain ⟨houtcome, hshare⟩ := h.agree_write he hnow ha hb (Side.owns_setting hl key)
      (Utf8.encode content) .replace
    exact ⟨congrArg (Except.mapError StoreError.ofFile) houtcome, hshare⟩

theorem load_eq :
    stores.settings.load key level a.tree = stores.settings.load key level b.tree := by
  rw [Settings.load, Settings.load]
  split
  · rfl
  rename_i path hp
  obtain ⟨hl, rfl⟩ := Settings.child_of_path_ok hp
  have hlook := readText?_congr (h.glance_eq (Side.owns_setting hl key))
  rw [show stores.settings.root = Side.settings.root stores from rfl, hlook]

end Alike

end Settings

end LineStore
