import Mathlib.Logic.Function.Basic
import Mathlib.Logic.Relation
import Mathlib.Tactic.Choose
import LineStore.Proofs.Documents.Map
import LineStore.Proofs.Files.Deeds
import LineStore.Proofs.Settings.Map
import LineStore.Service

/-!
# A machine that may stop

The writes of the stores, one file operation at a time and any number of them at once, and a process
that may stop between any two of these operations. When it starts again it knows nothing of the
writes that were on their way, and it counts from zero again; its number may be another one or the
same. The hidden names of the new process are then those of the old one, and what the old one left
under them is still there.

So a run keeps little that a write could rely on (`Sound`): the roots stay where they are, whatever
has a hidden name there is a file, and a write that has its hidden file open has the one that its
hidden name stands for. What the run keeps of others' files is for the modules that come after this
one.
-/

namespace LineStore

open LineStore.Tree

/-! ## What is written -/

/-- A document or a setting. -/
inductive Item
  | document (name : String)
  | setting (key level : String)

namespace Item

variable {stores : Stores} {a b item : Item} {p : Path} {tree : Tree} {home : Location}
  {text : String}

def root (stores : Stores) : Item → Path
  | document _ => stores.documents.root
  | setting _ _ => stores.settings.root

def fileName : Item → Name
  | document name => Documents.fileName name
  | setting key level => Settings.fileName key level

def path (stores : Stores) : Item → Except StoreError Path
  | document name => stores.documents.path name
  | setting key level => stores.settings.path key level

def read (stores : Stores) (tree : Tree) : Item → Except StoreError String
  | document name => stores.documents.get name tree
  | setting key level => stores.settings.load key level tree

/-- What a store writes for the item, and how. A put that may not overwrite has looked first; what
it saw may have changed since. -/
def Takes : Item → String → WriteMode → Prop
  | document _, _, _ => True
  | setting _ _, content, mode => mode = .replace ∧ Settings.checkContent content = .ok ()

theorem path_ok (h : item.path stores = .ok p) : p = (item.root stores).child item.fileName ∧
    ∀ process count, Host.hiddenName process count ≠ item.fileName := by
  have visible : ∀ {s : String}, s.toList.head? ≠ some '.' → ∀ process count,
      Host.hiddenName process count ≠ Utf8.encode s := fun hs process count =>
    Host.hidden_ne_encode ⟨Tree.empty, 0, process, count, fun _ => 0⟩ hs
  cases item with
  | document name =>
    by_cases hn : Identifier.isDocumentName name = true
    · rw [path, Documents.path_eq hn] at h
      cases h
      exact ⟨rfl, visible (Documents.key_visible hn)⟩
    · rw [path, Documents.path_invalid hn] at h
      cases h
  | setting key level =>
    rw [path, Settings.path] at h
    split at h
    · cases h
    split at h
    · cases h
    · rename_i hl
      cases h
      refine ⟨rfl, visible (Settings.fileText_visible ?_ key)⟩
      simpa using hl

theorem exists_path_of_read (h : item.read stores tree = .ok text) :
    ∃ p, item.path stores = .ok p := by
  cases hp : item.path stores with
  | ok p => exact ⟨p, rfl⟩
  | error e =>
    cases item with
    | document name =>
      rw [path] at hp
      rw [read, Documents.get, hp] at h
      cases h
    | setting key level =>
      rw [path] at hp
      rw [read, Settings.load, hp] at h
      cases h

/-- No document has the file of a setting. -/
theorem fileName_document_ne (name key level : String) :
    Documents.fileName name ≠ Settings.fileName key level := by
  intro h
  have hkey : Documents.key name = Settings.fileText key level := Utf8.encode_injective h
  have hdocument : (Documents.key name).toList.getLast? = some 't' := by
    rcases Documents.key_cases name with ⟨⟨stem, hstem⟩, hk⟩ | ⟨-, hk⟩
    · rw [hk, hstem, String.toList_append, List.getLast?_append]
      rfl
    · rw [hk, String.toList_append, List.getLast?_append]
      rfl
  have hsetting : (Settings.fileText key level).toList.getLast? = some 'n' := by
    rw [Settings.fileText, String.toList_append, List.getLast?_append]
    rfl
  rw [hkey, hsetting] at hdocument
  cases hdocument

/-- Items with one file name are in one root. -/
theorem root_eq (h : a.fileName = b.fileName) : a.root stores = b.root stores := by
  cases a with
  | document name =>
    cases b with
    | document _ => rfl
    | setting key level => exact absurd h (fileName_document_ne name key level)
  | setting key level =>
    cases b with
    | document name => exact absurd h.symm (fileName_document_ne name key level)
    | setting _ _ => rfl

/-- **An item is read if its file holds its text.** -/
theorem read_eq_ok_iff (hp : item.path stores = .ok p)
    (ho : tree.Opens (item.root stores) home)
    (hl : ∀ target, tree.get? (item.fileName :: home) ≠ some (.link target)) :
    item.read stores tree = .ok text ↔ (item.root stores).refusal? item.fileName = none ∧
      ∃ file, tree.get? (item.fileName :: home) = some (.file file) ∧
        file.bytes = Utf8.encode text := by
  have hread : item.read stores tree = .ok text ↔ tree.readText? p = .ok (some text) := by
    cases item with
    | document name =>
      rw [path] at hp
      rw [read, Documents.get, hp]
      dsimp only
      rcases tree.readText? p with e | (_ | other) <;> simp
    | setting key level =>
      rw [path] at hp
      rw [read, Settings.load, hp]
      dsimp only
      rcases tree.readText? p with e | (_ | other) <;> simp
  rw [hread, (path_ok hp).1, readText?, readBytes, ho.follow_child hl]
  cases hr : (item.root stores).refusal? item.fileName with
  | some e =>
    rcases Path.refusal_cases hr with rfl | rfl <;> simp
  | none =>
    cases hg : tree.get? (item.fileName :: home) with
    | none => simp
    | some node =>
      cases node with
      | directory => simp
      | link target => exact absurd hg (hl target)
      | file file =>
        dsimp only
        cases hd : Utf8.decode? file.bytes with
        | none =>
          simp only [reduceCtorEq, Option.some.injEq, Node.file.injEq, exists_eq_left', true_and,
            false_iff]
          intro hb
          rw [hb, Utf8.decode?_encode] at hd
          cases hd
        | some other =>
          have hb := Utf8.decode?_eq_some_iff.1 hd
          simp only [Except.ok.injEq, Option.some.injEq, Node.file.injEq, exists_eq_left', true_and]
          rw [hb]
          exact ⟨fun h => by rw [h], fun h => Utf8.encode_injective h⟩

end Item

/-! ## The machine -/

/-- A host, and the writes of its process that are on their way, each under its count. -/
structure Machine where
  host : Host
  writes : UInt64 → Option AtomicWrite

/-- What a step of the machine is about. -/
inductive Act
  /-- The file at this path. -/
  | on (target : Path)
  /-- No file. -/
  | aside
  | restart

namespace Machine

/-- A host where no write is on its way. -/
def atRest (host : Host) : Machine := ⟨host, fun _ => none⟩

/-- A write is about to begin, under the next count. -/
def launch (s : Machine) (target : Path) (content : Bytes) (mode : WriteMode) : Machine where
  host := { s.host with writes := s.host.writes + 1 }
  writes := Function.update s.writes s.host.writes (some (s.host.prepare target content mode))

/-- A write does its next file operation. -/
def advance (s : Machine) (count : UInt64) (chunk : Nat) : Machine :=
  match s.writes count with
  | none => s
  | some w =>
    { host := s.host.settle (w.step chunk s.host.now s.host.tree).2
      writes := Function.update s.writes count (some (w.step chunk s.host.now s.host.tree).1) }

/-- The process stops, and a new one starts. -/
def restart (s : Machine) (process : UInt32) : Machine :=
  atRest { s.host with process, writes := 0 }

/-- What can happen next. A count is taken again only when the write that had it is over. -/
inductive Step (stores : Stores) : Act → Machine → Machine → Prop
  | launch {s : Machine} {item : Item} {content : String} {mode : WriteMode} {target : Path}
      (hp : item.path stores = .ok target) (ht : item.Takes content mode)
      (hf : s.writes s.host.writes = none) :
      Step stores (.on target) s (s.launch target (Utf8.encode content) mode)
  | advance {s : Machine} {count : UInt64} {w : AtomicWrite} (hw : s.writes count = some w)
      (chunk : Nat) : Step stores (.on w.target) s (s.advance count chunk)
  | retire {s : Machine} {count : UInt64} {w : AtomicWrite} {outcome : Except FileError Unit}
      (hw : s.writes count = some w) (hd : w.phase = .done outcome) :
      Step stores .aside s { s with writes := Function.update s.writes count none }
  | delete {s : Machine} {name : String} {target : Path} {tree : Tree}
      (hp : stores.documents.path name = .ok target) (hu : s.host.tree.unlink target = .ok tree) :
      Step stores (.on target) s { s with host := s.host.settle tree }
  | wait {s : Machine} (now : Instant) :
      Step stores .aside s { s with host := { s.host with now } }
  | restart {s : Machine} (process : UInt32) : Step stores .restart s (s.restart process)

/-- Whatever happens. -/
def Run (stores : Stores) : Machine → Machine → Prop :=
  Relation.ReflTransGen fun s t => ∃ act, Step stores act s t

/-- Whatever happens to other items. -/
def Beside (stores : Stores) (item : Item) : Machine → Machine → Prop :=
  Relation.ReflTransGen fun s t =>
    ∃ act, Step stores act s t ∧ ∀ target, item.path stores = .ok target → act ≠ .on target

variable {stores : Stores} {s t : Machine} {act : Act} {count : UInt64} {w : AtomicWrite}

theorem advance_eq (hw : s.writes count = some w) (chunk : Nat) :
    s.advance count chunk =
      { host := s.host.settle (w.step chunk s.host.now s.host.tree).2
        writes :=
          Function.update s.writes count (some (w.step chunk s.host.now s.host.tree).1) } := by
  rw [advance, hw]

/-! ### A write alone -/

/-- A write does a number of operations with nobody else about. -/
def advances (count : UInt64) (chunk : Nat) : Nat → Machine → Machine
  | 0, s => s
  | n + 1, s => advances count chunk n (s.advance count chunk)

theorem advances_eq (hw : s.writes count = some w) (chunk n : Nat) :
    advances count chunk n s =
      { host := s.host.carry chunk n w
        writes := Function.update s.writes count
          (some (AtomicWrite.steps chunk s.host.now n (w, s.host.tree)).1) } := by
  induction n generalizing s w with
  | zero =>
    rw [advances, AtomicWrite.steps, ← hw, Function.update_eq_self]
    rfl
  | succ n ih =>
    rw [advances, advance_eq hw, ih (Function.update_self ..), Function.update_idem]
    rfl

/-- **A write that is let alone is the store's.** -/
theorem advances_launch (s : Machine) (target : Path) (content : Bytes) (mode : WriteMode) :
    (advances s.host.writes content.length 4 (s.launch target content mode)).host =
      (s.host.writeAtomic target content mode).2 := by
  rw [advances_eq (s := s.launch target content mode) (Function.update_self ..)]
  exact (s.host.writeAtomic_eq_carry target content mode).symm

end Machine

/-! ## What is kept in all runs -/

/-- The roots that are written to. -/
def Stores.writable (stores : Stores) : List Path := [stores.documents.root, stores.settings.root]

theorem Item.root_mem (item : Item) (stores : Stores) : item.root stores ∈ stores.writable := by
  cases item <;> simp [Item.root, Stores.writable]

namespace Machine

/-- The roots lead to directories without links, in which nothing has a hidden name. -/
def Clean (stores : Stores) (tree : Tree) : Prop :=
  ∀ root ∈ stores.writable, ∃ home, tree.follow root = .ok (home, .directory) ∧
    tree.get? home = some .directory ∧ ∀ n node, tree.get? (n :: home) = some node →
      (∀ target, node ≠ .link target) ∧ ∀ process count, n ≠ Host.hiddenName process count

/-- A write for an item is on its way. -/
structure Going (stores : Stores) (home : Path → Location) (host : Host) (count : UInt64)
    (w : AtomicWrite) (item : Item) : Prop where
  target : item.path stores = .ok w.target
  temp : w.temp = (item.root stores).trim.child (Host.hiddenName host.process count)
  /-- The file that it has open is the one that its hidden name stands for. -/
  opened : ∀ id rest, w.phase = .writing id rest →
    (item.root stores).trim.refusal? (Host.hiddenName host.process count) = none ∧
      ∃ file, host.tree.get? (Host.hiddenName host.process count :: home (item.root stores)) =
        some (.file file) ∧ file.id = id
  linked : w.phase = .clearing (.ok ()) →
    (item.root stores).trim.refusal? (Host.hiddenName host.process count) = none

/-- What holds of the roots, wherever a run has come. -/
structure Rooted (stores : Stores) (home : Path → Location) (tree : Tree) : Prop where
  opens : ∀ root ∈ stores.writable, tree.Opens root (home root)
  unlinked : ∀ root ∈ stores.writable, ∀ n target,
    tree.get? (n :: home root) ≠ some (.link target)
  hidden : ∀ root ∈ stores.writable, ∀ process count node,
    tree.get? (Host.hiddenName process count :: home root) = some node → ∃ file, node = .file file

structure Sound (stores : Stores) (home : Path → Location) (s : Machine) : Prop where
  rooted : Rooted stores home s.host.tree
  going : ∀ count w, s.writes count = some w → ∃ item, Going stores home s.host count w item

variable {stores : Stores} {home : Path → Location} {s t : Machine} {act : Act} {count : UInt64}
  {w : AtomicWrite} {item : Item} {root : Path} {tree after : Tree} {m n : Name}
  {written : Option Nat}

theorem sound_atRest {host : Host} (h : Clean stores host.tree) :
    ∃ home, Sound stores home (atRest host) ∧ ∀ root ∈ stores.writable, ∀ process count,
      host.tree.get? (Host.hiddenName process count :: home root) = none := by
  choose! home hfollow hdirectory hentry using h
  have hvacant : ∀ root ∈ stores.writable, ∀ process count,
      host.tree.get? (Host.hiddenName process count :: home root) = none := by
    intro root hr process count
    by_contra hn
    obtain ⟨node, hg⟩ := Option.ne_none_iff_exists'.1 hn
    exact (hentry root hr _ node hg).2 process count rfl
  refine ⟨home, ⟨⟨fun root hr => .of_follow (hfollow root hr) (hdirectory root hr), ?_, ?_⟩, nofun⟩,
    hvacant⟩
  · intro root hr n target hg
    exact (hentry root hr n _ hg).1 target rfl
  · intro root hr process count node hg
    exact absurd (hg.symm.trans (hvacant root hr process count)) (by simp)

theorem Rooted.shift (h : Rooted stores home tree) (hr : root ∈ stores.writable)
    (hs : tree.Shift (home root) m n written after) : Rooted stores home after := by
  have hd := (h.opens root hr).directory
  constructor
  case opens => exact fun other ho => hs.opens hd (h.opens other ho)
  case unlinked =>
    intro other ho k target hg
    rcases hs.old hd hg with ⟨_, hf⟩ | hold
    · cases hf
    · exact h.unlinked other ho k target hold
  case hidden =>
    intro other ho process count node hg
    rcases hs.old hd hg with hf | hold
    · exact hf
    · exact h.hidden other ho process count node hold

/-- Others' writes do not mind what is done under other names. -/
theorem Going.shift {host : Host} (h : Going stores home host count w item)
    (hd : host.tree.get? (home root) = some .directory)
    (hs : host.tree.Shift (home root) m n written after)
    (hm : m ≠ Host.hiddenName host.process count) (hn : n ≠ Host.hiddenName host.process count) :
    Going stores home (host.settle after) count w item where
  target := h.target
  temp := h.temp
  linked := h.linked
  opened id rest hphase := by
    obtain ⟨hr, file, hg, hid⟩ := h.opened id rest hphase
    obtain ⟨new, hnew, hid'⟩ := hs.numbered hd (by simp [hm.symm]) (by simp [hn.symm]) hg
    exact ⟨hr, new, hnew, hid'.trans hid⟩

theorem Going.deed (h : Going stores home s.host count w item)
    (hr : Rooted stores home s.host.tree) (chunk : Nat) :
    w.Deed s.host.tree (item.root stores).trim (home (item.root stores))
      (Host.hiddenName s.host.process count) item.fileName w.phase
      (w.advance chunk s.host.now s.host.tree).1 (w.advance chunk s.host.now s.host.tree).2 := by
  obtain ⟨htarget, hvisible⟩ := Item.path_ok h.target
  have hroot := item.root_mem stores
  have ho := hr.opens _ hroot
  exact AtomicWrite.deed_advance ho htarget (ho.alike (Path.alike_trim _)) h.temp
    (fun node hg => hr.hidden _ hroot _ _ node hg) (fun target => hr.unlinked _ hroot _ target)
    (hvisible _ _) chunk s.host.now

/-- Its own hidden file a write knows after each of its operations. -/
theorem Going.advance (h : Going stores home s.host count w item)
    (hr : Rooted stores home s.host.tree) (chunk : Nat) :
    Going stores home (s.host.settle (w.step chunk s.host.now s.host.tree).2) count
      (w.step chunk s.host.now s.host.tree).1 item := by
  have hdeed := h.deed hr chunk
  have hd := (hr.opens _ (item.root_mem stores)).directory
  constructor
  case target => exact h.target
  case temp => exact h.temp
  case opened => exact fun id rest hphase => hdeed.opened hd h.opened hphase
  case linked => exact fun hphase => hdeed.refusal? hphase

theorem Going.of_host {host other : Host} (h : Going stores home host count w item)
    (ht : other.tree = host.tree) (hp : other.process = host.process) :
    Going stores home other count w item := by
  constructor
  case target => exact h.target
  case temp => rw [hp]; exact h.temp
  case opened => rw [ht, hp]; exact h.opened
  case linked => rw [hp]; exact h.linked

theorem Going.of_prepare {host : Host} {target : Path} {content : Bytes} {mode : WriteMode}
    (hp : item.path stores = .ok target) :
    Going stores home host host.writes (host.prepare target content mode) item := by
  constructor
  case target => exact hp
  case temp =>
    rw [Host.prepare, (Item.path_ok hp).1]
    exact Path.sibling_child ..
  case opened => nofun
  case linked => nofun

/-- What a removal does. -/
theorem Rooted.shift_of_unlink {name : String} {target : Path}
    (h : Rooted stores home tree) (hp : stores.documents.path name = .ok target)
    (hu : tree.unlink target = .ok after) :
    tree.Shift (home stores.documents.root) (Documents.fileName name) (Documents.fileName name)
      none after := by
  have hp : Item.path stores (.document name) = .ok target := hp
  have hroot := Item.root_mem (.document name) stores
  rw [(Item.path_ok hp).1] at hu
  obtain ⟨node, hg, hf, rfl⟩ := (h.opens _ hroot).unlink_ok hu
  cases node with
  | directory => exact absurd rfl hf
  | link path => exact absurd hg (h.unlinked _ hroot _ path)
  | file file => exact .drop hg

/-- A write that is found after one count has changed. -/
theorem update_cases {writes : UInt64 → Option AtomicWrite} {v? : Option AtomicWrite}
    {other : UInt64} (h : Function.update writes count v? other = some w) :
    other = count ∧ v? = some w ∨ other ≠ count ∧ writes other = some w := by
  by_cases hc : other = count
  · rw [hc, Function.update_self] at h
    exact .inl ⟨hc, h⟩
  · rw [Function.update_of_ne hc] at h
    exact .inr ⟨hc, h⟩

/-- **Every step keeps what a run keeps.** -/
theorem Sound.step (h : Sound stores home s) (hs : Step stores act s t) : Sound stores home t := by
  obtain ⟨hrooted, hgoing⟩ := h
  cases hs with
  | launch hp ht hf =>
    refine ⟨hrooted, fun count w hw => ?_⟩
    rcases update_cases hw with ⟨rfl, hv⟩ | ⟨-, hv⟩
    · cases hv
      exact ⟨_, (Going.of_prepare hp).of_host rfl rfl⟩
    · obtain ⟨item, hg⟩ := hgoing count w hv
      exact ⟨item, hg.of_host rfl rfl⟩
  | @advance _ count w hw chunk =>
    obtain ⟨item, hg⟩ := hgoing count w hw
    obtain ⟨-, hvisible⟩ := Item.path_ok hg.target
    obtain ⟨written, hshift, -⟩ := (hg.deed hrooted chunk).shift (hvisible _ _)
    have hroot := item.root_mem stores
    rw [advance_eq hw]
    refine ⟨hrooted.shift hroot hshift, fun other v hv => ?_⟩
    rcases update_cases hv with ⟨rfl, hnew⟩ | ⟨hc, hold⟩
    · cases hnew
      exact ⟨item, hg.advance hrooted chunk⟩
    · obtain ⟨beside, hb⟩ := hgoing other v hold
      refine ⟨beside, hb.shift (hrooted.opens _ hroot).directory hshift (fun he => ?_)
        (hvisible _ _).symm⟩
      exact hc (Host.hiddenName_inj he).2.symm
  | retire _ _ =>
    refine ⟨hrooted, fun other v hv => ?_⟩
    rcases update_cases hv with ⟨-, hv⟩ | ⟨-, hv⟩
    · cases hv
    · exact hgoing other v hv
  | @delete _ name target after hp hu =>
    have hp : Item.path stores (.document name) = .ok target := hp
    obtain ⟨-, hvisible⟩ := Item.path_ok hp
    have hshift := hrooted.shift_of_unlink hp hu
    have hroot := Item.root_mem (.document name) stores
    refine ⟨hrooted.shift hroot hshift, fun other v hv => ?_⟩
    obtain ⟨item, hg⟩ := hgoing other v hv
    exact ⟨item, hg.shift (hrooted.opens _ hroot).directory hshift (hvisible _ _).symm
      (hvisible _ _).symm⟩
  | wait now =>
    refine ⟨hrooted, fun count w hw => ?_⟩
    obtain ⟨item, hg⟩ := hgoing count w hw
    exact ⟨item, hg.of_host rfl rfl⟩
  | restart process => exact ⟨hrooted, nofun⟩

theorem Sound.run (h : Sound stores home s) (hr : Run stores s t) : Sound stores home t := by
  induction hr with
  | refl => exact h
  | tail _ hs ih =>
    obtain ⟨act, hs⟩ := hs
    exact ih.step hs

end Machine
end LineStore
