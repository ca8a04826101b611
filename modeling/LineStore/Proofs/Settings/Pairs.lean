import LineStore.Proofs.Settings.Map
import LineStore.Text.Cut

/-!
# Levels and keys

A setting belongs to a level and a key, and its file is named by the two with a dot between them. A
dot may also stand inside a level or a key, so the pair can be read off the file's name only if
there is **no other dot**. With no other dot, two pairs with one file are one pair (`fileText_inj`),
and a load answers by the saves of its own pair. With another dot the name can be cut there as well,
both parts are accepted (`Identifier.isKey_join`), and a save of the pair that comes out of it is
answered by the load of this one. `load_eq_saved_iff` puts the two together.
-/

namespace LineStore.Settings

variable {σ : Type} {key level : String}

/-- The content that the past has saved under a key and a level. -/
def saved : History σ → String → String → Option String
  | [], _, _ => none
  | (.save k l content _ _, .ok _) :: past, key, level =>
    if k = key ∧ l = level then some content else saved past key level
  | _ :: past, key, level => saved past key level

/-- The answer to a load where this was saved under its pair. -/
def answerOf (key level : String) : Option String → Answer
  | some content => .ok (some content)
  | none => .error (.notFound (level ++ "." ++ key))

/-! ## Names that are cut at another dot -/

/-- A text with one separator has one way of being put together. -/
theorem append_cons_inj {sep : Char} {a b a' b' : List Char} (ha : sep ∉ a) (hb : sep ∉ b)
    (h : a' ++ sep :: b' = a ++ sep :: b) : a' = a ∧ b' = b := by
  -- A separator in `a'` would be one more than the right side has.
  have hn : sep ∉ a' := by
    intro hm
    obtain ⟨front, back, rfl⟩ := List.append_of_mem hm
    rw [List.append_assoc, List.cons_append] at h
    rcases List.append_eq_append_iff.1 h with ⟨more, hf, hs⟩ | ⟨more, hf, hs⟩
    · cases more with
      | nil =>
        obtain ⟨_, rfl⟩ := List.cons.inj hs
        exact hb (List.mem_append_right _ List.mem_cons_self)
      | cons c more =>
        obtain ⟨rfl, _⟩ := List.cons.inj hs
        exact ha (hf ▸ List.mem_append_right _ List.mem_cons_self)
    · cases more with
      | nil =>
        obtain ⟨_, rfl⟩ := List.cons.inj hs
        exact hb (List.mem_append_right _ List.mem_cons_self)
      | cons c more =>
        obtain ⟨rfl, rfl⟩ := List.cons.inj hs
        exact hb (List.mem_append_right _ (List.mem_cons_of_mem _
          (List.mem_append_right _ List.mem_cons_self)))
  have hc := Text.cut?_append b' hn
  rw [h, Text.cut?_append b ha] at hc
  cases hc
  exact ⟨rfl, rfl⟩

theorem toList_fileText (key level : String) :
    (fileText key level).toList = level.toList ++ '.' :: key.toList ++ ".json".toList := by
  unfold fileText
  simp

/-- **With no dot inside, the pair can be read off the name of its file.** -/
theorem fileText_inj (hk : '.' ∉ key.toList) (hl : '.' ∉ level.toList) {k l : String} :
    fileText k l = fileText key level ↔ k = key ∧ l = level := by
  constructor
  · intro h
    have ht := congrArg String.toList h
    rw [toList_fileText, toList_fileText] at ht
    obtain ⟨hl', hk'⟩ := append_cons_inj hl hk (List.append_cancel_right ht)
    exact ⟨String.toList_inj.1 hk', String.toList_inj.1 hl'⟩
  · rintro ⟨rfl, rfl⟩
    rfl

theorem exists_parts (h : Identifier.isKey key = true) (hd : '.' ∈ key.toList) :
    ∃ a b, key = a ++ "." ++ b ∧ Identifier.isKey a = true ∧ Identifier.isKey b = true := by
  obtain ⟨a, b, hab⟩ := List.append_of_mem hd
  have hj : key = String.ofList a ++ "." ++ String.ofList b := by
    rw [← String.toList_inj, hab]
    simp
  rw [hj] at h
  exact ⟨_, _, hj, Identifier.isKey_join.1 h⟩

/-- **With another dot inside, another pair has the same file.** -/
theorem exists_other_pair (hk : Identifier.isKey key = true) (hl : Identifier.isKey level = true)
    (hd : '.' ∈ key.toList ∨ '.' ∈ level.toList) :
    ∃ k l, Identifier.isKey k = true ∧ Identifier.isKey l = true ∧
      fileText k l = fileText key level ∧ ¬ (k = key ∧ l = level) := by
  rcases hd with hd | hd
  · obtain ⟨a, b, rfl, ha, hb⟩ := exists_parts hk hd
    refine ⟨b, level ++ "." ++ a, hb, Identifier.isKey_join.2 ⟨hl, ha⟩, ?_, ?_⟩
    · simp only [fileText, String.append_assoc]
    · rintro ⟨he, _⟩
      have hlen := congrArg (fun s => s.toList.length) he
      simp at hlen
      omega
  · obtain ⟨a, b, rfl, ha, hb⟩ := exists_parts hl hd
    refine ⟨b ++ "." ++ key, a, Identifier.isKey_join.2 ⟨hb, hk⟩, ha, ?_, ?_⟩
    · simp only [fileText, String.append_assoc]
    · rintro ⟨he, _⟩
      have hlen := congrArg (fun s => s.toList.length) he
      simp at hlen
      omega

/-! ## What a load answers -/

variable {store : Settings} {sink : Sink σ} {host : Host} {home : Location} {past : History σ}

theorem length_fileName_ge (hk : Identifier.isKey key = true) (hl : Identifier.isKey level = true) :
    8 ≤ (fileName key level).length := by
  have hpos : ∀ {s : String}, Identifier.isKey s = true → 0 < (Utf8.encode s).length := by
    intro s hs
    refine List.length_pos_iff.2 fun he => ?_
    obtain ⟨hne, _⟩ := Identifier.isKey_iff.1 hs
    have hempty : s = "" := Utf8.encode_injective he
    rw [hempty] at hne
    exact hne rfl
  have h1 := hpos hk
  have h2 := hpos hl
  have hd : (Utf8.encode ".").length = 1 := by decide
  have hj : (Utf8.encode ".json").length = 5 := by decide
  rw [fileName, Utf8.encode_append, Utf8.encode_append, Utf8.encode_append, List.length_append,
    List.length_append, List.length_append, hd, hj]
  omega

theorem zero_not_mem_fileName (hk : Identifier.isKey key = true)
    (hl : Identifier.isKey level = true) : 0 ∉ fileName key level := by
  have hz : ∀ {s : String}, Identifier.isKey s = true → '\x00' ∉ s.toList := by
    intro s hs hm
    have := (Identifier.isKey_iff.1 hs).2.2 _ hm
    cases this
  rw [fileName_eq, Utf8.zero_mem_encode, toList_fileText]
  intro hm
  rcases List.mem_append.1 hm with hm | hm
  · rcases List.mem_append.1 hm with hm | hm
    · exact hz hl hm
    · rcases List.mem_cons.1 hm with hm | hm
      · cases hm
      · exact hz hk hm
  · revert hm
    decide

/-- Where the name of a setting's file is short enough, only the whole path can be too long. -/
theorem refusal?_fileName {root : Path} (hz : root.hasZero = false)
    (hk : Identifier.isKey key = true) (hl : Identifier.isKey level = true)
    (hn : (fileName key level).length ≤ Tree.nameLimit) :
    root.refusal? (fileName key level) =
      if Path.limit < (root.child (fileName key level)).length then some .nameTooLong
      else none := by
  have hc : ¬ Tree.nameLimit < (fileName key level).length := Nat.not_lt.2 hn
  rw [Path.refusal?, hz, if_neg (by simpa using zero_not_mem_fileName hk hl)]
  simp only [hc, or_false]

/-- **What is loaded is the last content that was saved under the name of the file.** -/
theorem load_of_reached (h : Reached (store.act sink) store.root home host past)
    (hk : Identifier.isKey key = true) (hl : Identifier.isKey level = true)
    (hn : (fileName key level).length ≤ Tree.nameLimit) :
    (store.act sink (.load key level) host).1 =
      if Path.limit < (store.root.child (fileName key level)).length then
        .error (.ofFile .nameTooLong)
      else answerOf key level (bound past (fileText key level)) := by
  have hkeeps := keeps_of_reached h
  have hends : Ends _ _ _ host (store.act sink (.load key level) host) :=
    act_ends hkeeps (.load key level)
  rw [refusal?, Call.key, Call.level, hk, hl, if_neg (by simp), if_neg (by simp), cause?,
    refusal?_fileName hkeeps.hasZero hk hl hn] at hends
  by_cases hlong : Path.limit < (store.root.child (fileName key level)).length
  · rw [if_pos hlong] at hends ⊢
    exact hends.refused.1
  · rw [if_neg hlong] at hends ⊢
    cases ht : bound past (fileText key level) with
    | none =>
      rw [ht] at hends
      exact hends.refused.1
    | some content =>
      rw [ht] at hends
      refine hends.done.1.trans ?_
      rw [Call.value, ht]
      rfl

theorem bound_eq_saved (hk : '.' ∉ key.toList) (hl : '.' ∉ level.toList) (past : History σ) :
    bound past (fileText key level) = saved past key level := by
  induction past with
  | nil => rfl
  | cons entry past ih =>
    obtain ⟨call, answer⟩ := entry
    cases call with
    | load k l => cases answer <;> exact ih
    | save k l content client state =>
      cases answer with
      | error e => exact ih
      | ok value =>
        rw [bound, saved, Call.update]
        dsimp only
        rw [ih]
        by_cases hp : k = key ∧ l = level
        · rw [if_pos hp, if_pos ((fileText_inj hk hl).2 hp).symm]
        · rw [if_neg hp, if_neg fun ht => hp ((fileText_inj hk hl).1 ht.symm)]

/-- The host with the numbers for hidden names at zero, where a hidden name is shortest. -/
def zeroed (host : Host) : Host := { host with process := 0, writes := 0 }

theorem length_hidden_zeroed (host : Host) : (zeroed host).hidden.length = 8 := by
  show (Host.hiddenName 0 0).length = 8
  decide +kernel

/-- Where the path of a file is short enough, a save can succeed, as soon as the hidden name is no
longer than the file's. -/
theorem exists_reached_save (sink : Sink σ) (state : σ) {start : Host}
    (hs : start.tree.OpensEmpty store.root home)
    (hk : Identifier.isKey key = true) (hl : Identifier.isKey level = true)
    (hn : (fileName key level).length ≤ Tree.nameLimit)
    (hp : (store.root.child (fileName key level)).length ≤ Path.limit) :
    ∃ host, Reached (store.act sink) store.root home host
      [(.save key level "1" "m" state, .ok none)] := by
  have hr : Reached (store.act sink) store.root home (zeroed start) [] :=
    .meanwhile (.start hs) ⟨hs.keeps.opens, fun _ => rfl⟩
  have hkeeps := keeps_of_reached hr
  have hends : Ends _ _ _ (zeroed start)
      (store.act sink (.save key level "1" "m" state) (zeroed start)) :=
    act_ends hkeeps (.save key level "1" "m" state)
  have hfits : (store.root.trim.child (zeroed start).hidden).length ≤ Path.limit := by
    refine Nat.le_trans (Path.length_trim_child_le ..) ?_
    obtain ⟨front, hf⟩ := Path.length_child store.root
    have hge := length_fileName_ge hk hl
    rw [hf] at hp ⊢
    rw [length_hidden_zeroed]
    omega
  have hhidden : store.root.trim.refusal? (zeroed start).hidden = none := by
    rw [(zeroed start).refusal?_hidden hkeeps.hasZero, if_neg (Nat.not_lt.2 hfits)]
  have hc : contentRefusal? "1" "m" = none := rfl
  rw [refusal?, Call.key, Call.level, hk, hl, if_neg (by simp), if_neg (by simp), cause?, hc,
    hhidden, refusal?_fileName hkeeps.hasZero hk hl hn, if_neg (Nat.not_lt.2 hp)] at hends
  change Ends none _ _ _ _ at hends
  have hcall := Reached.call hr (.save key level "1" "m" state)
  rw [hends.done.1] at hcall
  exact ⟨_, hcall⟩

/-- Every load of the pair, after any past, answers by the last save of that very pair that
succeeded. -/
def LoadsSaved (store : Settings) (sink : Sink σ) (home : Location) (key level : String) : Prop :=
  ∀ host past, Reached (store.act sink) store.root home host past →
    (store.act sink (.load key level) host).1 = answerOf key level (saved past key level)

/-- **Settings are kept by pairs of a key and a level exactly where no dot is inside either.** Apart
from a path that is too long, which no load can open, dots are the only way to fail it. -/
theorem load_eq_saved_iff (store : Settings) (sink : Sink σ) (state : σ) {start : Host}
    (hs : start.tree.OpensEmpty store.root home)
    (hk : Identifier.isKey key = true) (hl : Identifier.isKey level = true)
    (hn : (fileName key level).length ≤ Tree.nameLimit) :
    store.LoadsSaved sink home key level ↔
      (store.root.child (fileName key level)).length ≤ Path.limit ∧
        '.' ∉ key.toList ∧ '.' ∉ level.toList := by
  constructor
  · intro h
    -- At the start nothing is saved, and a load that cannot open its path does not say so.
    have hp : (store.root.child (fileName key level)).length ≤ Path.limit := by
      refine Nat.not_lt.1 fun hlong => ?_
      have hload : (store.act sink (.load key level) start).1 = _ :=
        load_of_reached (.start hs) hk hl hn
      rw [if_pos hlong, h start [] (.start hs)] at hload
      cases hload
    -- With another dot, a save of the other pair is what the load of this one finds.
    refine ⟨hp, not_or.1 fun hd => ?_⟩
    obtain ⟨k, l, hk', hl', ht, hne⟩ := exists_other_pair hk hl hd
    have hname : fileName k l = fileName key level := congrArg Utf8.encode ht
    obtain ⟨host, hr⟩ := exists_reached_save sink state hs hk' hl' (hname ▸ hn)
      (hname ▸ hp)
    have hsaved : saved [(.save k l "1" "m" state, .ok none)] key level = none := if_neg hne
    have hbound : bound [(.save k l "1" "m" state, .ok none)] (fileText key level) = some "1" :=
      if_pos ht.symm
    have hload := load_of_reached hr hk hl hn
    rw [if_neg (Nat.not_lt.2 hp), h host _ hr, hsaved, hbound] at hload
    cases hload
  · rintro ⟨hp, hkd, hld⟩ host past hr
    rw [load_of_reached hr hk hl hn, if_neg (Nat.not_lt.2 hp), bound_eq_saved hkd hld]

def quiet : Sink Unit := fun _ _ state => (.ok (), state)

theorem load_eq_saved_iff_theme :
    Host.fresh.tree.OpensEmpty (.winding 0) [[0x64]] ∧ Identifier.isKey "theme" = true ∧
      Identifier.isKey "user" = true ∧ (fileName "theme" "user").length ≤ Tree.nameLimit ∧
      LoadsSaved ⟨.winding 0⟩ quiet [[0x64]] "theme" "user" := by
  have hs : Host.fresh.tree.OpensEmpty (.winding 0) [[0x64]] :=
    Host.opensEmpty_fresh (k := 0) (by decide)
  refine ⟨hs, by decide, by decide, by decide, ?_⟩
  exact (load_eq_saved_iff ⟨.winding 0⟩ quiet () hs (by decide) (by decide) (by decide)).2
    ⟨by decide, by decide, by decide⟩

/-- Key `b.c` at level `a` and key `c` at level `a.b` have one file. -/
theorem load_saved_by_other_pair :
    ∃ host past, Reached (act ⟨.winding 0⟩ quiet) (.winding 0) [[0x64]] host past ∧
      Identifier.isKey "b.c" = true ∧ Identifier.isKey "a" = true ∧
      (fileName "b.c" "a").length ≤ Tree.nameLimit ∧ saved past "b.c" "a" = some "1" ∧
      (act ⟨.winding 0⟩ quiet (.load "b.c" "a") host).1 = .ok (some "2") := by
  have hs : Reached (act ⟨.winding 0⟩ quiet) (.winding 0) [[0x64]] .fresh [] :=
    .start (Host.opensEmpty_fresh (k := 0) (by decide))
  have hr := (hs.call (.save "b.c" "a" "1" "m" ())).call (.save "c" "a.b" "2" "m" ())
  exact ⟨_, _, hr, by decide, by decide, by decide, rfl, rfl⟩

end LineStore.Settings
