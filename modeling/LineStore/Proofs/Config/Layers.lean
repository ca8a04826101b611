import LineStore.Config.Load

/-!
# What layers hold under a name

A source says things under paths, and of several things under one name the last counts (`said?`).
For a name that is no path, what a layer holds under it is **the last that was said under just that
name, or else something compound** (`lookup_ofSource?`): a path that leads into a part of it makes
it a list or a table. The same holds of all layers together (`lookup_atop`). No field takes a
compound, so a field that is taken at all is taken from what was said of it, and what is said under
other names makes no difference to it.
-/

namespace LineStore.Config

/-! ## Names and paths -/

/-- Whether a name stands for itself when it is taken for a path. -/
def IsPlain (name : String) : Prop := splitPath name = (name, [])

instance : DecidablePred IsPlain := fun name => decEq (splitPath name) (name, [])

/-- Whether a path leads into a part of what is called `name`. -/
def LeadsInto (name path : String) : Prop := (splitPath path).1 = name ∧ (splitPath path).2 ≠ []

theorem steps?_ne_nil {limit : Nat} {s : List Char} (h : s ≠ []) : steps? limit s ≠ some [] := by
  intro hs
  cases s with
  | nil => exact h rfl
  | cons c rest =>
    cases limit with
    | zero => cases hs
    | succ limit =>
      rw [steps?] at hs
      split at hs
      · dsimp only at hs
        split at hs
        · cases hs
        · obtain ⟨_, -, hcons⟩ := Option.map_eq_some_iff.1 hs
          cases hcons
      · split at hs
        · obtain ⟨_, -, hinner⟩ := Option.bind_eq_some_iff.1 hs
          obtain ⟨_, -, hcons⟩ := Option.map_eq_some_iff.1 hinner
          cases hcons
        · cases hs

/-- A path of no steps is the name it leads to. -/
theorem eq_of_splitPath {path name : String} (h : splitPath path = (name, [])) : path = name := by
  unfold splitPath at h
  dsimp only at h
  split at h
  · exact congrArg Prod.fst h
  · split at h
    · rename_i steps hs
      obtain ⟨hname, rfl⟩ := Prod.mk.inj h
      have hrest : path.toList.dropWhile isNameChar = [] :=
        Decidable.byContradiction fun hne => steps?_ne_nil hne hs
      have hall := List.takeWhile_append_dropWhile (p := isNameChar) (l := path.toList)
      rw [hrest, List.append_nil] at hall
      rw [← hname, hall, String.ofList_toList]
    · exact congrArg Prod.fst h

/-! ## Putting something in a place -/

section

variable {β : Type} {b : β} {name key : String}

theorem lookup_cons_ne (h : name ≠ key) (b : β) (l : List (String × β)) :
    ((key, b) :: l).lookup name = l.lookup name := by
  rw [List.lookup_cons, beq_eq_false_iff_ne.2 h]

theorem lookup_replaceAt_self (key : String) (b : β) (l : List (String × β)) :
    (replaceAt key b l).lookup key = some b := by
  induction l with
  | nil => exact List.lookup_cons_self
  | cons entry rest ih =>
    obtain ⟨k, c⟩ := entry
    rw [replaceAt]
    split
    · rename_i hk
      rw [hk, List.lookup_cons_self]
    · rename_i hk
      rw [lookup_cons_ne (Ne.symm hk), ih]

theorem lookup_replaceAt_ne (h : name ≠ key) (b : β) (l : List (String × β)) :
    (replaceAt key b l).lookup name = l.lookup name := by
  induction l with
  | nil => exact lookup_cons_ne h b []
  | cons entry rest ih =>
    obtain ⟨k, c⟩ := entry
    rw [replaceAt]
    split
    · rename_i hk
      rw [hk, lookup_cons_ne h, lookup_cons_ne h]
    · rw [List.lookup_cons, List.lookup_cons, ih]

theorem replaceAt_ne_nil (key : String) (b : β) (l : List (String × β)) :
    replaceAt key b l ≠ [] := by
  cases l with
  | nil => simp [replaceAt]
  | cons entry rest =>
    obtain ⟨k, c⟩ := entry
    rw [replaceAt]
    split <;> simp

theorem mem_replaceAt_fst {l : List (String × β)}
    (h : name ∈ (replaceAt key b l).map Prod.fst) : name = key ∨ name ∈ l.map Prod.fst := by
  induction l with
  | nil => simpa [replaceAt] using h
  | cons entry rest ih =>
    obtain ⟨k, c⟩ := entry
    rw [replaceAt] at h
    split at h
    · exact .inr h
    · rw [List.map_cons, List.mem_cons] at h ⊢
      rcases h with h | h
      · exact .inr (.inl h)
      · exact (ih h).imp_right .inr

theorem nodup_replaceAt {l : List (String × β)} (h : (l.map Prod.fst).Nodup) (key : String)
    (b : β) : ((replaceAt key b l).map Prod.fst).Nodup := by
  induction l with
  | nil => simp [replaceAt]
  | cons entry rest ih =>
    obtain ⟨k, c⟩ := entry
    rw [List.map_cons, List.nodup_cons] at h
    rw [replaceAt]
    split
    · exact List.nodup_cons.2 h
    · rename_i hk
      refine List.nodup_cons.2 ⟨?_, ih h.2⟩
      intro hm
      rcases mem_replaceAt_fst hm with rfl | hm
      · exact hk rfl
      · exact h.1 hm

end

/-! ## Compounds -/

namespace Setting

/-- A list, or a table with members. -/
def Compound : Setting → Prop
  | scalar _ _ => False
  | list _ _ _ => True
  | table members => members ≠ []

/-- A single value. -/
def IsScalar (s : Setting) : Prop := ∃ origin value, s = .scalar origin value

theorem mergeMembers_ne_nil {there : List (String × Setting)} (h : there ≠ [])
    (more : List (String × Setting)) : mergeMembers there more ≠ [] := by
  induction more generalizing there with
  | nil => rwa [mergeMembers]
  | cons m more ih =>
    obtain ⟨name, setting⟩ := m
    rw [mergeMembers]
    exact ih (replaceAt_ne_nil _ _ _)

/-- What a compound is merged into becomes a compound. -/
theorem compound_merge {s : Setting} (h : s.Compound) (there : Option Setting) :
    (merge there s).Compound := by
  cases s with
  | scalar origin value => exact h.elim
  | list origin length items =>
    rw [merge]
    trivial
  | table members =>
    cases members with
    | nil => exact absurd rfl h
    | cons m rest =>
      obtain ⟨name, setting⟩ := m
      rw [merge, mergeMembers]
      exact mergeMembers_ne_nil (replaceAt_ne_nil _ _ _) rest

theorem IsScalar.merge {s : Setting} (h : s.IsScalar) (there : Option Setting) :
    merge there s = s := by
  obtain ⟨origin, value, rfl⟩ := h
  rw [Setting.merge]

/-- What a path leads into is a compound. -/
theorem compound_of_putAt? {s result : Setting} {steps : List Step} {there : Option Setting}
    (hs : steps ≠ []) (h : putAt? s steps there = some result) : result.Compound := by
  cases steps with
  | nil => exact absurd rfl hs
  | cons step steps =>
    cases step with
    | member name =>
      rw [putAt?] at h
      obtain ⟨inner, -, rfl⟩ := Option.map_eq_some_iff.1 h
      exact replaceAt_ne_nil _ _ _
    | item index =>
      unfold putAt? at h
      dsimp only at h
      obtain ⟨k, -, h⟩ := Option.bind_eq_some_iff.1 h
      obtain ⟨inner, -, rfl⟩ := Option.map_eq_some_iff.1 h
      trivial

/-- A member of the table that another was put into. -/
theorem lookup_mergeMembers {upper : List (String × Setting)} (h : (upper.map Prod.fst).Nodup)
    (lower : List (String × Setting)) (name : String) :
    (mergeMembers lower upper).lookup name =
      match upper.lookup name with
      | some s => some (merge (lower.lookup name) s)
      | none => lower.lookup name := by
  induction upper generalizing lower with
  | nil => rw [mergeMembers, List.lookup_nil]
  | cons m upper ih =>
    obtain ⟨key, setting⟩ := m
    rw [List.map_cons, List.nodup_cons] at h
    rw [mergeMembers, ih h.2]
    by_cases hk : name = key
    · subst hk
      -- The name does not come again, so what was put there stays.
      have hnone : upper.lookup name = none := by
        rw [List.lookup_eq_none_iff]
        intro entry he
        have hne : name ≠ entry.1 := fun hk => h.1 (List.mem_map.2 ⟨entry, he, hk.symm⟩)
        simpa using hne
      rw [hnone, lookup_replaceAt_self, List.lookup_cons_self]
    · rw [lookup_replaceAt_ne hk, lookup_cons_ne hk]

end Setting

/-! ## What is said of a name -/

/-- What a source says of a name: the last that it says under just this name. -/
def said? (source : List (String × Setting)) (name : String) : Option Setting :=
  source.reverse.lookup name

theorem said?_append (source more : List (String × Setting)) (name : String) :
    said? (source ++ more) name = (said? more name).or (said? source name) := by
  rw [said?, List.reverse_append, List.lookup_append]
  rfl

theorem said?_cons (path : String) (s : Setting) (source : List (String × Setting))
    (name : String) :
    said? ((path, s) :: source) name =
      (said? source name).or (if name = path then some s else none) := by
  rw [← List.singleton_append, said?_append]
  by_cases h : name = path
  · rw [if_pos h, h]
    exact congrArg _ List.lookup_cons_self
  · rw [if_neg h]
    exact congrArg _ (lookup_cons_ne h s [])

section

variable {layer lower start : Layer} {source : List (String × Setting)} {name : String}

/-- A source is put into a layer one saying after the other. -/
theorem ofSource?_cons {path : String} {s : Setting} :
    start.ofSource? ((path, s) :: source) =
      (start.put? (splitPath path).1 (splitPath path).2 s).bind (·.ofSource? source) := rfl

theorem nodup_ofSource? (hd : (start.map Prod.fst).Nodup)
    (h : start.ofSource? source = some layer) : (layer.map Prod.fst).Nodup := by
  induction source generalizing start with
  | nil =>
    cases h
    exact hd
  | cons entry source ih =>
    rw [ofSource?_cons] at h
    obtain ⟨next, hnext, hrest⟩ := Option.bind_eq_some_iff.1 h
    obtain ⟨put, -, rfl⟩ := Option.map_eq_some_iff.1 hnext
    exact ih (nodup_replaceAt hd _ _) hrest

/-- **A layer holds under a name what was last said under it, or a compound** that a path leads
into. What it held before stays only if nothing was said. -/
theorem lookup_ofSource? (hn : IsPlain name) (hs : ∀ s, said? source name = some s → s.IsScalar)
    (h : start.ofSource? source = some layer) :
    layer.lookup name = (said? source name).or (start.lookup name) ∨
      ∃ s, layer.lookup name = some s ∧ s.Compound ∧ ∃ entry ∈ source, LeadsInto name entry.1 := by
  induction source generalizing start with
  | nil =>
    cases h
    exact .inl rfl
  | cons entry source ih =>
    obtain ⟨path, s⟩ := entry
    rw [ofSource?_cons] at h
    obtain ⟨next, hnext, hrest⟩ := Option.bind_eq_some_iff.1 h
    obtain ⟨put, hput, rfl⟩ := Option.map_eq_some_iff.1 hnext
    have hlater : ∀ t, said? source name = some t → t.IsScalar := by
      intro t ht
      apply hs
      rw [said?_cons, ht, Option.some_or]
    rcases ih hlater hrest with hl | ⟨t, hl, hc, e, he, hinto⟩
    · rw [hl, said?_cons]
      by_cases hname : (splitPath path).1 = name
      · rw [hname, lookup_replaceAt_self]
        by_cases hsteps : (splitPath path).2 = []
        · -- What is said now counts unless something is said later.
          obtain rfl : path = name := eq_of_splitPath (Prod.ext hname hsteps)
          left
          cases hsaid : said? source path with
          | some t => rfl
          | none =>
            have hscalar : s.IsScalar := hs s (by rw [said?_cons, hsaid, if_pos rfl]; rfl)
            rw [hsteps, Setting.putAt?, hscalar.merge] at hput
            rw [if_pos rfl, ← Option.some.inj hput]
            rfl
        · -- A path into a part of it: a compound, unless it is replaced later.
          have hcompound := Setting.compound_of_putAt? hsteps hput
          have hne : name ≠ path := by
            rintro rfl
            rw [hn] at hsteps
            exact hsteps rfl
          rw [if_neg hne, Option.or_none]
          cases hsaid : said? source name with
          | some t => exact .inl rfl
          | none => exact .inr ⟨put, rfl, hcompound, _, List.mem_cons_self, hname, hsteps⟩
      · have hne : name ≠ path := by
          rintro rfl
          rw [hn] at hname
          exact hname rfl
        rw [lookup_replaceAt_ne (Ne.symm hname), if_neg hne, Option.or_none]
        exact .inl rfl
    · exact .inr ⟨t, hl, hc, e, List.mem_cons_of_mem _ he, hinto⟩

/-- What the sources said of a name is what is found in all layers, or there is a compound. -/
theorem lookup_atop (hn : IsPlain name) (hs : ∀ s, said? source name = some s → s.IsScalar)
    (h : Layer.ofSource? [] source = some layer) (lower : Layer) :
    (layer.atop lower).lookup name = (said? source name).or (lower.lookup name) ∨
      ∃ s, (layer.atop lower).lookup name = some s ∧ s.Compound ∧
        ∃ entry ∈ source, LeadsInto name entry.1 := by
  rw [Layer.atop, Setting.lookup_mergeMembers (nodup_ofSource? (by simp) h)]
  rcases lookup_ofSource? hn hs h with hl | ⟨s, hl, hc, hinto⟩
  · rw [hl, List.lookup_nil, Option.or_none]
    left
    cases hsaid : said? source name with
    | none => rfl
    | some s =>
      show some (Setting.merge _ s) = some s
      rw [(hs s hsaid).merge]
  · rw [hl]
    exact .inr ⟨_, rfl, Setting.compound_merge hc _, hinto⟩

/-- Where no path leads into anything, everything that is said has a place. -/
theorem exists_ofSource? (h : ∀ entry ∈ source, (splitPath entry.1).2 = []) (start : Layer) :
    ∃ layer, start.ofSource? source = some layer := by
  induction source generalizing start with
  | nil => exact ⟨start, rfl⟩
  | cons entry source ih =>
    obtain ⟨path, s⟩ := entry
    rw [ofSource?_cons, h _ List.mem_cons_self]
    exact ih (fun e he => h e (List.mem_cons_of_mem _ he)) _

end

end LineStore.Config
