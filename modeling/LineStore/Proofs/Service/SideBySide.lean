import Mathlib.Tactic.Choose
import LineStore.Proofs.Files.Shaft
import LineStore.Proofs.Service.Shape
import LineStore.Proofs.Service.Sides

/-!
# The stores side by side

Calls of the documents and of the settings come in any order, and the roots are where they may be:
apart, one inside the other, or the same directory. `answers_of_side` says that each of the two
stores answers **as if the other had not been called**. The runs that are compared use different
hidden names, since all writes of a process are counted together; so what stands under these names
must not matter, and they have to be short enough or too long together (`Undisputed`). Neither goes
without saying, as `answers_differ` shows.

The proof follows one store through both runs. Its own calls find the same share in both and leave
the same (`agree_act`), and a call of the other one leaves the share as it is (`Steady.share_eq`).
-/

namespace LineStore

open LineStore.Tree

namespace Stores

/-! ## Calls -/

variable {σ : Type}

/-- A call of the documents or of the settings. -/
inductive Call (σ : Type)
  | document (call : Documents.Call)
  | list
  | setting (call : Settings.Call σ)

inductive Answer
  | document (answer : Documents.Answer)
  | list (answer : Except StoreError (List ListEntry))
  | setting (answer : Settings.Answer)
  deriving DecidableEq

namespace Call

def side : Call σ → Side
  | document _ | list => .documents
  | setting _ => .settings

/-- Whether the call may write. -/
def writes : Call σ → Bool
  | document (.put ..) | setting (.save ..) => true
  | _ => false

end Call

def Answer.side : Answer → Side
  | document _ | list _ => .documents
  | setting _ => .settings

def act (stores : Stores) (sink : Sink σ) (call : Call σ) (host : Host) : Answer × Host :=
  match call with
  | .document call =>
    match stores.documents.act call host with
    | (answer, host) => (.document answer, host)
  | .list => (.list (stores.documents.list host.tree), host)
  | .setting call =>
    match stores.settings.act sink call host with
    | (answer, host) => (.setting answer, host)

/-- The answers to calls that are made one after the other, each at its time. -/
def answers (stores : Stores) (sink : Sink σ) : List (Instant × Call σ) → Host → List Answer
  | [], _ => []
  | (now, call) :: rest, host =>
    match stores.act sink call { host with now } with
    | (answer, host) => answer :: answers stores sink rest host

variable {stores : Stores} {sink : Sink σ} {homes : Side → Location} {process : UInt32}
  {used : UInt64 → Prop} {side : Side} {host a b : Host}

theorem side_act (call : Call σ) (host : Host) :
    (stores.act sink call host).1.side = call.side := by
  cases call <;> rfl

theorem moves_act (sink : Sink σ) (h : Steady stores homes process used host) (call : Call σ)
    (hu : call.writes = true → used host.writes) :
    Moves homes call.side host (stores.act sink call host).2 := by
  cases call with
  | document call =>
    cases call with
    | put name content overwrite => exact h.moves_put name content overwrite (hu rfl)
    | get name => exact .refl ..
    | delete name => exact h.moves_delete name
  | list => exact .refl ..
  | setting call =>
    cases call with
    | save key level content client state =>
      have hm := h.moves_keep key level content client (hu rfl)
      have hsave := Settings.act_save stores.settings sink key level content client state host
      rw [show (stores.act sink (.setting (.save key level content client state)) host).2 =
        (stores.settings.keep key level content client host).2 from congrArg Prod.snd hsave]
      exact hm
    | load key level => exact .refl ..

/-- Only writes are counted. -/
theorem writes_act {call : Call σ} (hw : call.writes = false) :
    (stores.act sink call host).2.writes = host.writes := by
  cases call with
  | document call =>
    cases call with
    | put name content overwrite => cases hw
    | get name => rfl
    | delete name =>
      show (stores.documents.delete name host).2.writes = host.writes
      unfold Documents.delete
      split
      · rfl
      · split <;> rfl
  | list => rfl
  | setting call =>
    cases call with
    | save key level content client state => cases hw
    | load key level => rfl

/-- **Where a store finds its share the same, it answers the same and leaves the same.** -/
theorem agree_act (sink : Sink σ) {call : Call σ}
    (h : Alike stores homes process used call.side a b)
    (he : Even stores process used) (hnow : a.now = b.now)
    (ha : call.writes = true → used a.writes) (hb : call.writes = true → used b.writes) :
    Agree homes call.side (stores.act sink call a) (stores.act sink call b) := by
  have ofDocument : ∀ {r s : Documents.Answer × Host}, Agree homes .documents r s →
      Agree homes .documents (Answer.document r.1, r.2) (Answer.document s.1, s.2) :=
    Agree.map Answer.document
  have ofSetting : ∀ {r s : Settings.Answer × Host}, Agree homes .settings r s →
      Agree homes .settings (Answer.setting r.1, r.2) (Answer.setting s.1, s.2) :=
    Agree.map Answer.setting
  cases call with
  | document call =>
    cases call with
    | put name content overwrite =>
      exact ofDocument ((h.agree_put name content overwrite he hnow (ha rfl) (hb rfl)).map
        (Except.map some))
    | get name =>
      have hagree : Agree homes .documents (stores.documents.act (.get name) a)
          (stores.documents.act (.get name) b) :=
        ⟨congrArg (Except.map some) (h.get_eq name), h.share⟩
      exact ofDocument hagree
    | delete name => exact ofDocument ((h.agree_delete name).map (Except.map fun () => none))
  | list => exact ⟨congrArg Answer.list h.list_eq, h.share⟩
  | setting call =>
    cases call with
    | save key level content client state =>
      have hsave := Settings.act_save stores.settings sink key level content client state
      have hagree : Agree homes .settings
          (stores.settings.act sink (.save key level content client state) a)
          (stores.settings.act sink (.save key level content client state) b) := by
        rw [hsave, hsave]
        exact (h.agree_keep key level content client he hnow (ha rfl) (hb rfl)).map
          (Except.map fun () => none)
      exact ofSetting hagree
    | load key level =>
      have hagree : Agree homes .settings (stores.settings.act sink (.load key level) a)
          (stores.settings.act sink (.load key level) b) :=
        ⟨congrArg (Except.map some) (h.load_eq key level), h.share⟩
      exact ofSetting hagree

/-! ## Runs -/

/-- How many of the calls may write. -/
def writesOf (calls : List (Instant × Call σ)) : Nat := calls.countP (·.2.writes)

/-- A count is one of the next few. -/
def Next (writes : UInt64) (n : Nat) (count : UInt64) : Prop :=
  ∃ i < n, count = writes + UInt64.ofNat i

theorem Next.succ {writes count : UInt64} {n : Nat} (h : Next (writes + 1) n count) :
    Next writes (n + 1) count := by
  obtain ⟨i, hi, rfl⟩ := h
  refine ⟨i + 1, by omega, ?_⟩
  rw [UInt64.ofNat_add, UInt64.add_assoc, UInt64.add_comm 1]
  rfl

theorem writesOf_cons (now : Instant) (call : Call σ) (rest : List (Instant × Call σ)) :
    writesOf ((now, call) :: rest) = writesOf rest + if call.writes then 1 else 0 :=
  List.countP_cons

/-- The counts that are left after a call are among those that were left before. -/
theorem next_act {call : Call σ} {rest : List (Instant × Call σ)} {now : Instant} {count : UInt64}
    (hm : Moves homes call.side { host with now } (stores.act sink call { host with now }).2)
    (hn : Next (stores.act sink call { host with now }).2.writes (writesOf rest) count) :
    Next host.writes (writesOf ((now, call) :: rest)) count := by
  rw [writesOf_cons]
  cases hw : call.writes with
  | false =>
    rw [writes_act hw] at hn
    exact hn
  | true =>
    rcases hm.writes with he | he
    · rw [he] at hn
      obtain ⟨i, hi, rfl⟩ := hn
      exact ⟨i, Nat.lt_succ_of_lt hi, rfl⟩
    · rw [he] at hn
      exact hn.succ

theorem next_now {call : Call σ} {rest : List (Instant × Call σ)} {now : Instant}
    {writes : UInt64} (hw : call.writes = true) :
    Next writes (writesOf ((now, call) :: rest)) writes := by
  refine ⟨0, ?_, by simp⟩
  rw [writesOf_cons, if_pos hw]
  omega

/-- **A store answers the same in two runs**, one with the calls of the other store and one without
them, from hosts that it takes for the same. -/
theorem answers_of_alike {calls : List (Instant × Call σ)} (he : Even stores process used)
    (h : Alike stores homes process used side a b)
    (ha : ∀ count, Next a.writes (writesOf calls) count → used count)
    (hb : ∀ count, Next b.writes (writesOf calls) count → used count) :
    (stores.answers sink calls a).filter (·.side = side) =
      stores.answers sink (calls.filter (·.2.side = side)) b := by
  induction calls generalizing a b with
  | nil => rfl
  | cons timed rest ih =>
    obtain ⟨now, call⟩ := timed
    have hleft := h.left.later now
    have hright := h.right.later now
    have huse : call.writes = true → used a.writes := fun hw => ha _ (next_now hw)
    have hmoves := moves_act sink hleft call huse
    have hrest : ∀ count, Next (stores.act sink call { a with now }).2.writes (writesOf rest)
        count → used count := fun count hn => ha count (next_act hmoves hn)
    show (List.filter _ ((stores.act sink call { a with now }).1 ::
      stores.answers sink rest (stores.act sink call { a with now }).2)) = _
    by_cases hs : call.side = side
    case pos =>
      subst hs
      have huse' : call.writes = true → used b.writes := fun hw => hb _ (next_now hw)
      have hmoves' := moves_act sink hright call huse'
      have hrest' : ∀ count, Next (stores.act sink call { b with now }).2.writes (writesOf rest)
          count → used count := fun count hn => hb count (next_act hmoves' hn)
      obtain ⟨hanswer, hshare⟩ := agree_act sink ⟨hleft, hright, h.share⟩ he rfl huse huse'
      rw [List.filter_cons_of_pos (by simp [side_act]), List.filter_cons_of_pos (by simp)]
      show _ = (stores.act sink call { b with now }).1 ::
        stores.answers sink _ (stores.act sink call { b with now }).2
      rw [hanswer, ih ⟨hleft.moves hmoves, hright.moves hmoves', hshare⟩ hrest hrest']
    case neg =>
      rw [List.filter_cons_of_neg (by simpa [side_act] using hs),
        List.filter_cons_of_neg (by simpa using hs)]
      apply ih ⟨hleft.moves hmoves, h.right, ?_⟩ hrest
      · intro count hn
        obtain ⟨i, hi, rfl⟩ := hn
        refine hb _ ⟨i, ?_, rfl⟩
        rw [writesOf_cons]
        omega
      · exact (hleft.share_eq hmoves hs).trans h.share

/-! ## From the roots on -/

variable {ready : Host}

theorem mem_roots (stores : Stores) (side : Side) : side.root stores ∈ stores.roots := by
  cases side <;> simp [Side.root, roots]

/-- Making the roots makes no links. -/
theorem unlinked_of_makeRoots (hc : host.tree.get? host.tree.cwd = some .directory)
    (hl : ∀ loc target, host.tree.get? loc ≠ some (.link target))
    (hm : stores.makeRoots host = (.ok (), ready)) (loc : Location) (target : Bytes) :
    ready.tree.get? loc ≠ some (.link target) := by
  obtain ⟨hg, -⟩ := grown_of_makeRoots hc hm
  intro hlink
  cases hold : host.tree.get? loc with
  | some node =>
    rw [hg.kept loc node hold] at hlink
    exact hl loc target (hold.trans hlink)
  | none =>
    obtain ⟨p, -, hf⟩ := hg.new loc hold (by rw [hlink]; simp)
    rw [get?_of_follow (hg.directory hc) hf] at hlink
    cases hlink

/-- **A root that was made leads to a directory**, and an empty path is the current one. -/
theorem opens_of_makeRoots (hc : host.tree.get? host.tree.cwd = some .directory)
    (hm : stores.makeRoots host = (.ok (), ready)) (side : Side) :
    (side.root stores).hasZero = false ∧ ∃ home, ready.tree.Opens (side.root stores) home := by
  obtain ⟨hg, hf⟩ := grown_follow_of_makeRoots hc hm
  have hcwd := hg.directory hc
  cases he : (side.root stores).isEmpty with
  | true =>
    rw [Path.isEmpty, Bool.and_eq_true, List.isEmpty_iff, Bool.not_eq_true'] at he
    obtain ⟨ha, hs⟩ := he
    refine ⟨by simp [Path.hasZero, hs], ready.tree.cwd, ⟨linkLimit, ?_⟩, hcwd⟩
    rw [hs, start, ha]
    exact .done
  | false =>
    obtain ⟨home, hfollow⟩ := hf _ (mem_roots stores side) he
    have hfault := (walk_of_follow hfollow).1
    exact ⟨(Path.fault?_eq_none_iff.1 hfault).1, home,
      .of_follow hfollow (get?_of_follow hcwd hfollow)⟩

/-- What the hidden names of the next few writes are like, for no store to notice how many of them
were the other one's. -/
structure Undisputed (stores : Stores) (host : Host) (n : Nat) : Prop where
  /-- What stands under one of them in a root is a file that has no other name. -/
  lone : ∀ (side : Side) home count, host.tree.Opens (side.root stores) home →
    Next host.writes n count → host.tree.Lone (Host.hiddenName host.process count :: home)
  /-- If the path to one of them is not too long, none is. -/
  even : ∀ (side : Side) c d, Next host.writes n c → Next host.writes n d →
    ((side.root stores).trim.child (Host.hiddenName host.process c)).length ≤ Path.limit →
      ((side.root stores).trim.child (Host.hiddenName host.process d)).length ≤ Path.limit

theorem Undisputed.even_refusal? {n : Nat} (h : Undisputed stores host n)
    (hz : ∀ side : Side, (side.root stores).hasZero = false) :
    Even stores host.process (Next host.writes n) := by
  intro side c d hc hd
  have hrefusal : ∀ count, (side.root stores).trim.refusal? (Host.hiddenName host.process count) =
      if Path.limit < ((side.root stores).trim.child (Host.hiddenName host.process count)).length
        then some .nameTooLong else none :=
    fun count => { host with writes := count }.refusal?_hidden (hz side)
  have hcd := h.even side c d hc hd
  have hdc := h.even side d c hd hc
  rw [hrefusal, hrefusal]
  split
  · rw [if_pos (by omega)]
  · rw [if_neg (by omega)]

/-- Each store answers as if the other had not been called. -/
def AnswerApart (stores : Stores) (sink : Sink σ) (calls : List (Instant × Call σ)) (host : Host) :
    Prop :=
  ∀ side, (stores.answers sink calls host).filter (·.side = side) =
    stores.answers sink (calls.filter (·.2.side = side)) host

/-- **Each store answers as if the other had not been called.** The roots are any two paths, which
were made on a tree without links; then come any calls, each at its time. -/
theorem answers_of_side (stores : Stores) (sink : Sink σ) (calls : List (Instant × Call σ))
    (hc : host.tree.get? host.tree.cwd = some .directory)
    (hl : ∀ loc target, host.tree.get? loc ≠ some (.link target))
    (hm : stores.makeRoots host = (.ok (), ready))
    (hu : stores.Undisputed ready (writesOf calls)) : stores.AnswerApart sink calls ready := by
  intro side
  choose hz homes hopens using fun side => opens_of_makeRoots hc hm side
  have hsteady : Steady stores homes ready.process (Next ready.writes (writesOf calls)) ready :=
    ⟨rfl, hopens, unlinked_of_makeRoots hc hl hm, fun side count hn =>
      hu.lone side _ count (hopens side) hn⟩
  exact answers_of_alike (hu.even_refusal? hz) ⟨hsteady, hsteady, rfl⟩ (fun _ hn => hn)
    (fun _ hn => hn)

/-- Where no name starts with a dot and the roots' paths are short, nothing is in dispute. -/
theorem undisputed_of_plain (n : Nat)
    (hn : ∀ e ∈ host.tree.entries, e.name.head? ≠ some 0x2E)
    (hs : ∀ side : Side, ((side.root stores).child []).length + 36 ≤ Path.limit) :
    stores.Undisputed host n where
  lone side home count _ _ := by
    refine .of_vacant (get?_of_names (fun e he hname => hn e he ?_) home)
    rw [hname, Host.head?_hiddenName]
  even side _ d _ _ _ := by
    obtain ⟨front, hf⟩ := (side.root stores).trim.length_child
    have hd : (Host.hiddenName host.process d).length ≤ 36 :=
      { host with writes := d }.length_hidden
    have hroot := (side.root stores).length_trim_child_le []
    have hlimit := hs side
    rw [hf] at hroot ⊢
    simp only [List.length_nil] at hroot
    omega

/-- Documents and settings in one directory. -/
def sharing : Stores := ⟨⟨.winding 0⟩, ⟨.winding 0⟩, ⟨.winding 0⟩⟩

/-- A put and a save, and what is read after each of them. -/
def mixed : List (Instant × Call Ring) :=
  [(1, .setting (.save "k" "u" "1" "m" (.ofCapacity 1))), (2, .document (.put "a" "x" false)),
    (3, .setting (.load "k" "u")), (4, .document (.get "a")), (5, .list)]

def sharingHost : Host := (sharing.makeRoots .fresh).2

theorem makeRoots_sharing : sharing.makeRoots .fresh = (.ok (), sharingHost) := by
  have hok : (sharing.makeRoots .fresh).1 = .ok () := by decide +kernel
  rw [← hok]
  rfl

theorem answers_of_side_sharing :
    sharing.makeRoots .fresh = (.ok (), sharingHost) ∧
      sharing.Undisputed sharingHost (writesOf mixed) ∧
      sharing.AnswerApart Ring.sink mixed sharingHost := by
  have hu : sharing.Undisputed sharingHost (writesOf mixed) := by
    refine undisputed_of_plain _ (by decide +kernel) fun side => ?_
    cases side <;> decide +kernel
  have hl : ∀ loc target, Host.fresh.tree.get? loc ≠ some (.link target) := by
    intro loc target
    rw [Host.fresh, get?_attach rfl rfl]
    split
    · simp
    · cases loc <;> simp [Tree.empty, get?]
  exact ⟨makeRoots_sharing, hu, answers_of_side sharing Ring.sink mixed (by decide +kernel) hl
    makeRoots_sharing hu⟩

/-- A directory with a document that has a second name, which is the next hidden one. -/
def leftHost : Host :=
  ⟨((Tree.empty.attach [] [0x64] .directory).attach [[0x64]] (Documents.fileName "a")
    (.file ⟨0, Utf8.encode "x", 0⟩)).attach [[0x64]] (Host.hiddenName 1 0)
      (.file ⟨0, Utf8.encode "x", 0⟩), 0, 1, 0, fun _ => 0⟩

/-! ## Ten saves too many -/

/-- A write is counted, whatever comes of it. -/
theorem writes_act_save {key level content : String} (hk : Identifier.isKey key = true)
    (hl : Identifier.isKey level = true) (hc : Settings.checkContent content = .ok ())
    (client : String) (hne : client ≠ "") (state : σ) :
    (stores.act sink (.setting (.save key level content client state)) host).2.writes =
      host.writes + 1 := by
  have hsave := Settings.act_save stores.settings sink key level content client state host
  rw [show (stores.act sink (.setting (.save key level content client state)) host).2 =
    (stores.settings.keep key level content client host).2 from congrArg Prod.snd hsave,
    Settings.keep_eq, Settings.path_eq hk hl]
  dsimp only
  rw [if_neg hne, hc]
  rfl

/-- A save of one setting, at any time. -/
def save : Instant × Call Ring := (0, .setting (.save "k" "u" "1" "m" (.ofCapacity 1)))

/-- The documents notice nothing of saves but that the count has moved on. -/
theorem exists_after_saves (k : Nat) (h : Steady stores homes process (fun _ => True) host) :
    ∃ after, Steady stores homes process (fun _ => True) after ∧
      after.writes = host.writes + UInt64.ofNat k ∧ ∀ calls,
        (stores.answers Ring.sink (List.replicate k save ++ calls) host).filter
            (·.side = .documents) =
          (stores.answers Ring.sink calls after).filter (·.side = .documents) := by
  induction k generalizing host with
  | zero => exact ⟨host, h, by simp, fun _ => rfl⟩
  | succ k ih =>
    have hnow := h.later 0
    obtain ⟨after, hafter, hwrites, hanswers⟩ :=
      ih (hnow.moves (moves_act Ring.sink hnow save.2 fun _ => trivial))
    refine ⟨after, hafter, ?_, fun calls => ?_⟩
    · have hone : (stores.act Ring.sink save.2 { host with now := 0 }).2.writes =
          host.writes + 1 :=
        writes_act_save (by decide +kernel) (by decide +kernel) (by decide +kernel) "m" (by decide)
          (Ring.ofCapacity 1)
      rw [hwrites, hone, UInt64.ofNat_add, UInt64.add_assoc, UInt64.add_comm 1]
      rfl
    · rw [List.replicate_succ, List.cons_append]
      show List.filter _ ((stores.act Ring.sink save.2 { host with now := 0 }).1 ::
        stores.answers Ring.sink _ (stores.act Ring.sink save.2 { host with now := 0 }).2) = _
      rw [List.filter_cons_of_neg (by rw [side_act]; decide), hanswers]

/-- What a put that may overwrite answers. -/
theorem answers_put (h : Steady stores homes process (fun _ => True) host) (now : Instant) :
    stores.answers sink [(now, .document (.put "a" "x" true))] host =
      [.document ((Documents.answerOf "a" "x"
        (match AtomicWrite.hindrance? host.tree stores.documents.root.trim stores.documents.root
            (homes .documents) host.hidden (Documents.fileName "a") .replace with
          | some e => .error e
          | none => .ok ())).map some)] := by
  have hn : Identifier.isDocumentName "a" = true := by decide +kernel
  have hw := ((h.later now).write trivial (Side.owns_document hn) (Utf8.encode "x") .replace).2.1
  show [Answer.document ((stores.documents.put "a" "x" true { host with now }).1.map some)] = _
  rw [Documents.put_eq hn, if_pos rfl]
  exact congrArg
    (fun outcome => [Answer.document ((Documents.answerOf "a" "x" outcome).map some)]) hw

/-- **Stores in a shaft are at rest**: the roots are there, and no hidden name is in use. -/
theorem steady_shaft {loc : Location} (ht : host.tree = .shaft loc)
    (hn : ∀ n ∈ loc, n.length ≤ nameLimit) (hdot : ∀ n ∈ loc, n.head? ≠ some 0x2E)
    (hr : ∀ side : Side, side.root stores = .ofLocation (homes side) ∧ homes side <:+ loc) :
    Steady stores homes host.process (fun _ => True) host where
  number := rfl
  opens side := by
    rw [ht, (hr side).1]
    exact opens_shaft hn (hr side).2
  unlinked _ := by
    rw [ht]
    exact unlinked_shaft loc
  lone side count _ := by
    rw [ht]
    exact .of_vacant (get?_shaft_of_not_mem
      (fun hm => hdot _ hm (Host.head?_hiddenName host.process count)) _)

theorem makeRoots_shaft {loc : Location} (ht : host.tree = .shaft loc)
    (hn : ∀ n ∈ loc, n.length ≤ nameLimit)
    (hr : ∀ root ∈ stores.roots, ∃ n dir, root = .ofLocation (n :: dir) ∧ n :: dir <:+ loc ∧
      (Path.ofLocation dir).refusal? n = none) : stores.makeRoots host = (.ok (), host) := by
  have one : ∀ root ∈ stores.roots, host.makeDirectories root = (.ok (), host) := by
    intro root hroot
    obtain ⟨n, dir, rfl, hs, hfree⟩ := hr root hroot
    rw [Host.makeDirectories, ht, makeDirectories_shaft hn hs hfree]
    dsimp only
    rw [← ht, Host.settle_self]
  unfold makeRoots
  rw [one _ (by simp [roots])]
  dsimp only
  rw [one _ (by simp [roots])]
  dsimp only
  rw [one _ (by simp [roots])]

/-- A name that is nearly as long as a name can be. -/
def longName : Name := List.replicate 254 0x78

theorem length_longName : longName.length = 254 := List.length_replicate

theorem head?_longName : longName.head? = some 0x78 := rfl

theorem zero_not_mem_longName : 0 ∉ longName := by
  intro h
  exact absurd (List.eq_of_mem_replicate h) (by decide)

/-- A location at such a depth that the paths of hidden names below it are too long from the tenth
write of a process on. -/
def bottom : Location := [0x63, 0x63, 0x63] :: (List.replicate 16 longName ++ [[0x64]])

theorem suffix_bottom : [[0x64]] <:+ bottom :=
  (List.suffix_append (List.replicate 16 longName) _).trans (List.suffix_cons _ _)

theorem mem_bottom {n : Name} (h : n ∈ bottom) :
    n = [0x63, 0x63, 0x63] ∨ n = longName ∨ n = [0x64] := by
  simpa [bottom] using h

theorem length_le_of_mem_bottom : ∀ n ∈ bottom, n.length ≤ nameLimit := by
  intro n hn
  rcases mem_bottom hn with rfl | rfl | rfl
  · decide
  · rw [length_longName]
    decide
  · decide

theorem head?_of_mem_bottom : ∀ n ∈ bottom, n.head? ≠ some 0x2E := by
  intro n hn
  rcases mem_bottom hn with rfl | rfl | rfl
  · decide
  · rw [head?_longName]
    decide
  · decide

theorem length_child_bottom (n : Name) :
    ((Path.ofLocation bottom).child n).length = 4087 + n.length := by
  rw [Path.length_child_ofLocation]
  simp [bottom, length_longName]

/-- The documents are kept there, and the settings at the top. -/
def deep : Stores := ⟨⟨.ofLocation bottom⟩, ⟨.ofLocation [[0x64]]⟩, ⟨.ofLocation [[0x64]]⟩⟩

def deepHome : Side → Location
  | .documents => bottom
  | .settings => [[0x64]]

def deepHost : Host := ⟨.shaft bottom, 0, 1, 0, fun _ => 0⟩

theorem tree_deepHost : deepHost.tree = .shaft bottom := by simp only [deepHost]

theorem steady_deepHost : Steady deep deepHome 1 (fun _ => True) deepHost := by
  refine steady_shaft tree_deepHost length_le_of_mem_bottom head?_of_mem_bottom fun side => ?_
  cases side with
  | documents => exact ⟨rfl, List.suffix_refl _⟩
  | settings => exact ⟨rfl, suffix_bottom⟩

theorem hasZero_bottom : (Path.ofLocation bottom).hasZero = false := by
  refine hasZero_ofLocation.2 fun n hn => ?_
  rcases mem_bottom hn with rfl | rfl | rfl
  · decide
  · exact zero_not_mem_longName
  · decide

theorem makeRoots_deep : deep.makeRoots deepHost = (.ok (), deepHost) := by
  have htop : (Path.ofLocation []).refusal? [0x64] = none := by decide
  have hbottom : (Path.ofLocation (List.replicate 16 longName ++ [[0x64]])).refusal?
      [0x63, 0x63, 0x63] = none := by
    refine Path.refusal?_eq_none_iff.2 ⟨Path.fault?_eq_none_iff.2 ⟨?_, ?_, rfl⟩, by decide⟩
    · rw [← Path.ofLocation_cons]
      exact hasZero_bottom
    · rw [Path.length_child_ofLocation]
      simp [length_longName, Path.limit]
  refine makeRoots_shaft tree_deepHost length_le_of_mem_bottom fun root hr => ?_
  simp only [roots, List.mem_cons, List.not_mem_nil, or_false] at hr
  rcases hr with rfl | rfl | rfl
  · exact ⟨_, _, rfl, List.suffix_refl _, hbottom⟩
  · exact ⟨_, _, rfl, suffix_bottom, htop⟩
  · exact ⟨_, _, rfl, suffix_bottom, htop⟩

/-- Of the hidden names of a process those fit that are made of one digit. -/
theorem refusal?_hidden_bottom (host : Host) :
    deep.documents.root.trim.refusal? host.hidden =
      if 8 < host.hidden.length then some .nameTooLong else none := by
  have hroot : deep.documents.root = .ofLocation bottom := rfl
  rw [hroot, host.refusal?_hidden hasZero_bottom, Path.trim_ofLocation, length_child_bottom,
    Path.limit]
  by_cases h : 8 < host.hidden.length
  · rw [if_pos h, if_pos (by omega)]
  · rw [if_neg h, if_neg (by omega)]

theorem hindrance?_deepHost :
    AtomicWrite.hindrance? deepHost.tree deep.documents.root.trim deep.documents.root bottom
      deepHost.hidden (Documents.fileName "a") .replace = none := by
  have hname : Documents.fileName "a" ∉ bottom := by
    intro hm
    rcases mem_bottom hm with h | h | h
    · exact absurd h (by decide +kernel)
    · have hlength := congrArg List.length h
      rw [length_longName] at hlength
      exact absurd hlength (by decide +kernel)
    · exact absurd h (by decide +kernel)
  have hfile : deep.documents.root.refusal? (Documents.fileName "a") = none := by
    have hroot : deep.documents.root = .ofLocation bottom := rfl
    have hlength : (Documents.fileName "a").length = 5 := by decide +kernel
    rw [hroot]
    refine Path.refusal?_eq_none_iff.2 ⟨Path.fault?_eq_none_iff.2 ⟨?_, ?_, rfl⟩, ?_⟩
    · rw [Path.hasZero_child, hasZero_bottom]
      decide +kernel
    · rw [length_child_bottom, hlength]
      decide
    · rw [hlength]
      decide
  rw [AtomicWrite.hindrance?, refusal?_hidden_bottom, if_neg (by decide +kernel), hfile,
    tree_deepHost, get?_shaft_of_not_mem hname]
  rfl

/-- **A save can change what the documents answer**: where the hidden name of the save is a second
name of a document, and where ten saves make the next hidden name too long. -/
theorem answers_differ :
    ((∀ loc target, leftHost.tree.get? loc ≠ some (.link target)) ∧
      (sharing.makeRoots leftHost).1 = .ok () ∧
      let ready := (sharing.makeRoots leftHost).2
      let calls : List (Instant × Call Ring) :=
        [(1, .setting (.save "k" "u" "1" "m" (.ofCapacity 1))), (2, .document (.get "a"))]
      (sharing.answers Ring.sink calls ready).filter (·.side = .documents) =
          [.document (.ok (some "1"))] ∧
        sharing.answers Ring.sink (calls.filter (·.2.side = .documents)) ready =
          [.document (.ok (some "x"))]) ∧
    ((∀ loc target, deepHost.tree.get? loc ≠ some (.link target)) ∧
      deep.makeRoots deepHost = (.ok (), deepHost) ∧
      let calls := List.replicate 10 save ++ [(1, .document (.put "a" "x" true))]
      (deep.answers Ring.sink calls deepHost).filter (·.side = .documents) =
          [.document (.error (.ofFile .nameTooLong))] ∧
        deep.answers Ring.sink (calls.filter (·.2.side = .documents)) deepHost =
          [.document (.ok (some "x"))]) := by
  refine ⟨⟨?_, by decide +kernel⟩, fun loc => ?_, makeRoots_deep, ?_, ?_⟩
  · intro loc target
    cases loc with
    | nil => simp
    | cons n dir =>
      intro hlink
      have hm := leftHost.tree.get?_cons_eq_some_iff.1 hlink
      rw [show leftHost.tree.entries = [⟨[[0x64]], Host.hiddenName 1 0, .file ⟨0, [0x78], 0⟩⟩,
        ⟨[[0x64]], Documents.fileName "a", .file ⟨0, [0x78], 0⟩⟩, ⟨[], [0x64], .directory⟩] from
          by decide +kernel] at hm
      simp at hm
  · rw [tree_deepHost]
    exact unlinked_shaft bottom
  · obtain ⟨after, hafter, hwrites, hanswers⟩ := exists_after_saves 10 steady_deepHost
    have hhidden : after.hidden = Host.hiddenName 1 10 := by
      rw [Host.hidden, hafter.number, hwrites]
      rfl
    rw [hanswers, answers_put hafter, AtomicWrite.hindrance?, refusal?_hidden_bottom, hhidden,
      if_pos (by decide +kernel)]
    rfl
  · show deep.answers Ring.sink [(1, .document (.put "a" "x" true))] deepHost = _
    rw [answers_put steady_deepHost, show deepHome .documents = bottom from rfl,
      hindrance?_deepHost]
    rfl

end Stores
end LineStore
