import LineStore.Proofs.Config.Layers
import LineStore.Proofs.Config.Variables
import LineStore.Proofs.Json.Rereading

/-!
# The configuration that is loaded

Nine fields, five of them numbers and four texts, are looked up in three layers. What a field is
given is what the environment says of it, else what the file says, else what is built in
(`NumberField.given`, `TextField.given`); and a configuration that is loaded **has in each field
what that field was given, with two exceptions**. A port is cut to its low bits. A text from the
environment is taken for a truth value or a number where it reads as one, and comes back in the
spelling of that value (`respelled`).

What each layer holds is put together in one configuration (`assembled`); that no other is loaded
(`Fitting.of_load`) is one look at each field, and so is that it is loaded if nothing is said of
parts of settings (`Fitting.load_eq`).
-/

namespace LineStore.Config

/-! ## Fields -/

/-- The fields that are numbers. -/
inductive NumberField
  | port
  | maxClients
  | maxCommandLength
  | maxBodyBytes
  | eventBuffer
  deriving DecidableEq

/-- The fields that are texts. -/
inductive TextField
  | bindAddress
  | documentsRoot
  | settingsRoot
  | dictionariesRoot
  deriving DecidableEq

namespace NumberField

def name : NumberField → String
  | port => "port"
  | maxClients => "max_clients"
  | maxCommandLength => "max_command_length"
  | maxBodyBytes => "max_body_bytes"
  | eventBuffer => "event_buffer"

def get (c : Config) : NumberField → Nat
  | port => c.port
  | maxClients => c.maxClients
  | maxCommandLength => c.maxCommandLength
  | maxBodyBytes => c.maxBodyBytes
  | eventBuffer => c.eventBuffer

/-- What the field keeps of a number. -/
def kept : NumberField → Nat → Nat
  | port, n => n % portBound
  | _, n => n

theorem isPlain_name (f : NumberField) : IsPlain f.name := by
  cases f <;> decide

theorem kept_eq_self_iff {f : NumberField} {n : Nat} :
    f.kept n = n ↔ (f = .port → n < portBound) := by
  cases f with
  | port => simpa [kept] using Nat.mod_eq_iff_lt (by decide)
  | _ => simp [kept]

end NumberField

namespace TextField

def name : TextField → String
  | bindAddress => "bind_address"
  | documentsRoot => "documents_root"
  | settingsRoot => "settings_root"
  | dictionariesRoot => "dictionaries_root"

def get (c : Config) : TextField → String
  | bindAddress => c.bindAddress
  | documentsRoot => c.documentsRoot
  | settingsRoot => c.settingsRoot
  | dictionariesRoot => c.dictionariesRoot

theorem isPlain_name (f : TextField) : IsPlain f.name := by
  cases f <;> decide

end TextField

theorem eq_of_fields {c d : Config} (hn : ∀ f : NumberField, f.get c = f.get d)
    (ht : ∀ f : TextField, f.get c = f.get d) : c = d := by
  have hp := hn .port
  have hcl := hn .maxClients
  have hco := hn .maxCommandLength
  have hb := hn .maxBodyBytes
  have he := hn .eventBuffer
  have ha := ht .bindAddress
  have hd := ht .documentsRoot
  have hs := ht .settingsRoot
  have hr := ht .dictionariesRoot
  cases c
  cases d
  simp_all [NumberField.get, TextField.get]

/-! ## What a field is taken from -/

section

variable {α β ε ε' : Type} {x : Except ε α} {g : α → Except ε β} {a : α} {b : β} {e : ε}

theorem bind_eq_ok : x >>= g = .ok b ↔ ∃ a, x = .ok a ∧ g a = .ok b := by
  cases x with
  | ok a => simp [bind, Except.bind]
  | error e => simp [bind, Except.bind]

theorem mapError_eq_ok {f : ε → ε'} : x.mapError f = .ok a ↔ x = .ok a := by
  constructor
  · intro h
    cases x with
    | ok d => exact congrArg Except.ok (Except.ok.inj h)
    | error e => cases h
  · rintro rfl
    rfl

theorem elim_eq_ok {o : Option α} : o.elim (.error e) .ok = (.ok a : Except ε α) ↔ o = some a := by
  cases o with
  | some a => simp
  | none => simp

end

theorem field_eq_ok {α : Type} {convert : Setting → Except TypeFault α} {layer : Layer}
    {name : String} {a : α} :
    field convert layer name = .ok a ↔
      convert ((layer.lookup name).getD (.scalar none .nothing)) = .ok a := by
  unfold field
  split
  · rename_i h
    rw [h]
    simp
  · rename_i h
    rw [h]
    simp

/-- A configuration is made of its fields, each looked up for itself. -/
theorem ofLayer_eq_ok {layer : Layer} {c : Config} :
    ofLayer layer = .ok c ↔
      (∀ f : NumberField, ∃ n, field Setting.toNumber layer f.name = .ok n ∧ f.get c = f.kept n) ∧
      ∀ f : TextField, field Setting.toText layer f.name = .ok (f.get c) := by
  constructor
  · intro h
    simp only [ofLayer, bind_eq_ok] at h
    obtain ⟨a, ha, p, hp, d, hd, s, hs, r, hr, cl, hcl, co, hco, b, hb, e, he, h⟩ := h
    cases h
    constructor
    · intro f
      cases f with
      | port => exact ⟨p, hp, rfl⟩
      | maxClients => exact ⟨cl, hcl, rfl⟩
      | maxCommandLength => exact ⟨co, hco, rfl⟩
      | maxBodyBytes => exact ⟨b, hb, rfl⟩
      | eventBuffer => exact ⟨e, he, rfl⟩
    · intro f
      cases f <;> assumption
  · rintro ⟨hn, ht⟩
    obtain ⟨p, hp, hpc⟩ := hn .port
    obtain ⟨cl, hcl, hclc⟩ := hn .maxClients
    obtain ⟨co, hco, hcoc⟩ := hn .maxCommandLength
    obtain ⟨b, hb, hbc⟩ := hn .maxBodyBytes
    obtain ⟨e, he, hec⟩ := hn .eventBuffer
    simp only [ofLayer, bind_eq_ok]
    refine ⟨_, ht .bindAddress, p, hp, _, ht .documentsRoot, _, ht .settingsRoot, _,
      ht .dictionariesRoot, cl, hcl, co, hco, b, hb, e, he, congrArg Except.ok ?_⟩
    refine eq_of_fields ?_ ?_
    · intro f
      cases f with
      | port => exact hpc.symm
      | maxClients => exact hclc.symm
      | maxCommandLength => exact hcoc.symm
      | maxBodyBytes => exact hbc.symm
      | eventBuffer => exact hec.symm
    · intro f
      cases f <;> rfl

/-! ## What the sources give -/

/-- What the environment says of a field: the value of the last variable that is this setting. -/
def inEnvironment? (environment : List (String × String)) (name : String) : Option String :=
  (environment.reverse.find? fun entry => settingName? entry.1 = some name).map (·.2)

theorem said?_fromEnvironment (environment : List (String × String)) (name : String) :
    said? (fromEnvironment environment) name =
      (inEnvironment? environment name).map fun v =>
        .scalar (some environmentOrigin) (.ofVariable v) := by
  have hlookup : ∀ l : List (String × String),
      (fromEnvironment l).lookup name =
        ((l.find? fun entry => settingName? entry.1 = some name).map (·.2)).map fun v =>
          .scalar (some environmentOrigin) (.ofVariable v) := by
    intro l
    induction l with
    | nil => rfl
    | cons entry l ih =>
      obtain ⟨n, v⟩ := entry
      cases hn : settingName? n with
      | none => simpa [fromEnvironment, hn] using ih
      | some setting =>
        by_cases hs : name = setting
        · simp [fromEnvironment, hn, hs]
        · have hs' : ¬ setting = name := Ne.symm hs
          have hf : fromEnvironment ((n, v) :: l) =
              (setting, .scalar (some environmentOrigin) (.ofVariable v)) :: fromEnvironment l := by
            simp [fromEnvironment, hn]
          rw [hf, lookup_cons_ne hs, ih]
          simp [hn, hs']
  rw [said?, fromEnvironment, ← List.filterMap_reverse]
  exact hlookup environment.reverse

/-- Sources in which every field that is set is set to a value of its kind: a number to a whole
number from zero up, below `integerBound`, and a text to a text. All that a variable has is text. -/
structure Fitting (said : List (String × Setting)) (environment : List (String × String)) :
    Prop where
  number : ∀ (f : NumberField) s, said? said f.name = some s →
    ∃ origin, ∃ n : Nat, s = .scalar origin (.integer n) ∧ n < integerBound
  text : ∀ (f : TextField) s, said? said f.name = some s →
    ∃ origin t, s = .scalar origin (.text t)
  numeral : ∀ (f : NumberField) v, inEnvironment? environment f.name = some v →
    ∃ n, Numeral.read? integerBound v.toList = some n

variable {said : List (String × Setting)} {environment : List (String × String)}

/-- The number that a field is given. -/
def NumberField.given (said : List (String × Setting)) (environment : List (String × String))
    (f : NumberField) : Nat :=
  match inEnvironment? environment f.name, said? said f.name with
  | some v, _ => (Numeral.read? integerBound v.toList).getD 0
  | none, some (.scalar _ (.integer n)) => n.toNat
  | _, _ => f.get {}

/-- What the file gives a field, or what is built in. -/
def TextField.below (said : List (String × Setting)) (f : TextField) : String :=
  match said? said f.name with
  | some (.scalar _ (.text t)) => t
  | _ => f.get {}

/-- The text that a field is given. -/
def TextField.given (said : List (String × Setting)) (environment : List (String × String))
    (f : TextField) : String := (inEnvironment? environment f.name).getD (f.below said)

/-- The text that a field takes of it. -/
def TextField.taken (said : List (String × Setting)) (environment : List (String × String))
    (f : TextField) : String :=
  ((inEnvironment? environment f.name).map respelled).getD (f.below said)

theorem TextField.taken_eq_given_iff {f : TextField} :
    f.taken said environment = f.given said environment ↔
      ∀ v, inEnvironment? environment f.name = some v → respelled v = v := by
  unfold taken given
  cases inEnvironment? environment f.name with
  | none => simp
  | some v => simp

/-- What all sources say of a field is a single value. -/
theorem Fitting.isScalar {name : String} {s : Setting} (h : Fitting said environment)
    (hn : (∃ f : NumberField, f.name = name) ∨ ∃ f : TextField, f.name = name)
    (hs : said? (said ++ fromEnvironment environment) name = some s) : s.IsScalar := by
  rw [said?_append, said?_fromEnvironment] at hs
  cases hv : inEnvironment? environment name with
  | some v =>
    rw [hv] at hs
    exact ⟨_, _, (Option.some.inj hs).symm⟩
  | none =>
    rw [hv] at hs
    rcases hn with ⟨f, rfl⟩ | ⟨f, rfl⟩
    · obtain ⟨origin, n, rfl, -⟩ := h.number f s hs
      exact ⟨_, _, rfl⟩
    · obtain ⟨origin, t, rfl⟩ := h.text f s hs
      exact ⟨_, _, rfl⟩

/-- What is said of a field in all layers, if nothing leads into it. -/
def saidOf (said : List (String × Setting)) (environment : List (String × String))
    (name : String) : Setting :=
  ((said? (said ++ fromEnvironment environment) name).or ((toLayer {}).lookup name)).getD
    (.scalar none .nothing)

theorem Setting.toNumber_natural (origin : Option String) (n : Nat) :
    Setting.toNumber (.scalar origin (.integer n)) = .ok n := by
  rw [toNumber, if_neg (Int.not_lt.2 (Int.natCast_nonneg n)), Int.toNat_natCast]

theorem Fitting.toNumber_saidOf (h : Fitting said environment) (f : NumberField) :
    (saidOf said environment f.name).toNumber = .ok (f.given said environment) := by
  unfold saidOf NumberField.given
  rw [said?_append, said?_fromEnvironment]
  cases hv : inEnvironment? environment f.name with
  | some v =>
    obtain ⟨n, hn⟩ := h.numeral f v hv
    show Setting.toNumber (.scalar _ (.ofVariable v)) = _
    rw [ofVariable_of_read? hn, Setting.toNumber_natural]
    dsimp only
    rw [hn, Option.getD_some]
  | none =>
    cases hs : said? said f.name with
    | some s =>
      obtain ⟨origin, n, rfl, -⟩ := h.number f s hs
      exact Setting.toNumber_natural origin n
    | none => cases f <;> rfl

theorem Fitting.toText_saidOf (h : Fitting said environment) (f : TextField) :
    (saidOf said environment f.name).toText = .ok (f.taken said environment) := by
  unfold saidOf TextField.taken TextField.below
  rw [said?_append, said?_fromEnvironment]
  cases hv : inEnvironment? environment f.name with
  | some v => exact toText_ofVariable _ v
  | none =>
    cases hs : said? said f.name with
    | some s =>
      obtain ⟨origin, t, rfl⟩ := h.text f s hs
      rfl
    | none => cases f <;> rfl

/-! ## Loading -/

theorem Setting.Compound.toNumber_ne {s : Setting} (h : s.Compound) (n : Nat) :
    s.toNumber ≠ .ok n := by
  cases s with
  | scalar origin value => exact h.elim
  | _ => simp [toNumber]

theorem Setting.Compound.toText_ne {s : Setting} (h : s.Compound) (t : String) :
    s.toText ≠ .ok t := by
  cases s with
  | scalar origin value => exact h.elim
  | _ => simp [toText]

/-- The configuration that sources of the right kinds make. -/
def assembled (said : List (String × Setting)) (environment : List (String × String)) : Config where
  bindAddress := TextField.bindAddress.taken said environment
  port := NumberField.port.kept (NumberField.port.given said environment)
  documentsRoot := TextField.documentsRoot.taken said environment
  settingsRoot := TextField.settingsRoot.taken said environment
  dictionariesRoot := TextField.dictionariesRoot.taken said environment
  maxClients := NumberField.maxClients.given said environment
  maxCommandLength := NumberField.maxCommandLength.given said environment
  maxBodyBytes := NumberField.maxBodyBytes.given said environment
  eventBuffer := NumberField.eventBuffer.given said environment

theorem NumberField.get_assembled (f : NumberField) :
    f.get (assembled said environment) = f.kept (f.given said environment) := by
  cases f <;> rfl

theorem TextField.get_assembled (f : TextField) :
    f.get (assembled said environment) = f.taken said environment := by
  cases f <;> rfl

variable {tree : Tree} {file : Option Path} {c : Config} {layer : Layer}

/-- What is found under the name of a field is what was said of it, if the field takes it. -/
theorem Fitting.lookup_atop (h : Fitting said environment) {name : String}
    (hn : (∃ f : NumberField, f.name = name) ∨ ∃ f : TextField, f.name = name)
    (hl : Layer.ofSource? [] (said ++ fromEnvironment environment) = some layer) :
    ((layer.atop (toLayer {})).lookup name).getD (.scalar none .nothing) =
        saidOf said environment name ∨
      (((layer.atop (toLayer {})).lookup name).getD (.scalar none .nothing)).Compound ∧
        ∃ entry ∈ said ++ fromEnvironment environment, LeadsInto name entry.1 := by
  have hplain : IsPlain name := by
    rcases hn with ⟨f, rfl⟩ | ⟨f, rfl⟩
    · exact f.isPlain_name
    · exact f.isPlain_name
  have hscalar : ∀ s, said? (said ++ fromEnvironment environment) name = some s → s.IsScalar :=
    fun s => h.isScalar hn
  rcases Config.lookup_atop hplain hscalar hl (toLayer {}) with he | ⟨s, he, hc, hp⟩
  · rw [he]
    exact .inl rfl
  · rw [he]
    exact .inr ⟨hc, hp⟩

/-- **A layer of fitting sources makes no other configuration than the assembled one.** -/
theorem Fitting.eq_assembled (h : Fitting said environment)
    (hl : Layer.ofSource? [] (said ++ fromEnvironment environment) = some layer)
    (hc : ofLayer (layer.atop (toLayer {})) = .ok c) : c = assembled said environment := by
  obtain ⟨hnumbers, htexts⟩ := ofLayer_eq_ok.1 hc
  -- A field that found a compound would not have been taken.
  refine eq_of_fields ?_ ?_
  · intro f
    obtain ⟨n, hn, hget⟩ := hnumbers f
    rw [field_eq_ok] at hn
    rcases h.lookup_atop (.inl ⟨f, rfl⟩) hl with he | ⟨hcompound, -⟩
    · rw [he, h.toNumber_saidOf] at hn
      rw [hget, f.get_assembled, Except.ok.inj hn]
    · exact absurd hn (hcompound.toNumber_ne n)
  · intro f
    have ht := field_eq_ok.1 (htexts f)
    rcases h.lookup_atop (.inr ⟨f, rfl⟩) hl with he | ⟨hcompound, -⟩
    · rw [he, h.toText_saidOf] at ht
      rw [f.get_assembled, Except.ok.inj ht]
    · exact absurd ht (hcompound.toText_ne _)

theorem load_eq_ok (h : load tree file environment = .ok c) :
    ∃ said layer, fileSettings tree file = .ok said ∧
      Layer.ofSource? [] (said ++ fromEnvironment environment) = some layer ∧
      ofLayer (layer.atop (toLayer {})) = .ok c ∧ c.validate = .ok () := by
  simp only [load, bind_eq_ok, mapError_eq_ok, elim_eq_ok] at h
  obtain ⟨said, hs, layer, hl, d, hd, u, hv, hc⟩ := h
  cases hc
  exact ⟨said, layer, hs, hl, hd, hv⟩

/-- **Fitting sources load no other configuration than the assembled one**, and only if it passes
validation. -/
theorem Fitting.of_load (hf : Fitting said environment) (hs : fileSettings tree file = .ok said)
    (h : load tree file environment = .ok c) :
    c = assembled said environment ∧ c.validate = .ok () := by
  obtain ⟨said₁, layer, hs₁, hl, hc, hv⟩ := load_eq_ok h
  rw [hs] at hs₁
  cases hs₁
  exact ⟨hf.eq_assembled hl hc, hv⟩

/-- **Where no path leads into anything, the assembled configuration is loaded** if it is usable,
and its fault is reported if it is not. -/
theorem Fitting.load_eq (h : Fitting said environment) (hs : fileSettings tree file = .ok said)
    (hp : ∀ entry ∈ said ++ fromEnvironment environment, (splitPath entry.1).2 = []) :
    load tree file environment =
      ((assembled said environment).validate.mapError .unusable).map fun _ =>
        assembled said environment := by
  obtain ⟨layer, hl⟩ := exists_ofSource? hp []
  have hlookup : ∀ name, ((∃ f : NumberField, f.name = name) ∨ ∃ f : TextField, f.name = name) →
      ((layer.atop (toLayer {})).lookup name).getD (.scalar none .nothing) =
        saidOf said environment name := by
    intro name hn
    rcases h.lookup_atop hn hl with he | ⟨-, entry, he, -, hsteps⟩
    · exact he
    · exact absurd (hp entry he) hsteps
  have hmade : ofLayer (layer.atop (toLayer {})) = .ok (assembled said environment) := by
    refine ofLayer_eq_ok.2 ⟨?_, ?_⟩
    · intro f
      refine ⟨f.given said environment, field_eq_ok.2 ?_, f.get_assembled⟩
      rw [hlookup _ (.inl ⟨f, rfl⟩)]
      exact h.toNumber_saidOf f
    · intro f
      rw [field_eq_ok, hlookup _ (.inr ⟨f, rfl⟩), f.get_assembled]
      exact h.toText_saidOf f
  have hgiven : (fileSettings tree file).mapError LoadError.file = .ok said := by
    rw [hs]
    rfl
  simp only [load, hgiven, hl, hmade, Option.elim_some, bind, Except.bind]
  cases (assembled said environment).validate with
  | ok u => rfl
  | error e => rfl

/-- **A configuration that is loaded has passed validation, and each of its fields has what it was
given** exactly if, for a port, it fits, and, for a text that a variable gives, it is spelled as
what it is taken for. What a field has depends on what was said of this field and on nothing else.
Only a path can lead where no list has an item. -/
theorem loaded_as_given_iff (hs : fileSettings tree file = .ok said)
    (hf : Fitting said environment) :
    (load tree file environment = .error .noItem →
      ∃ entry ∈ said ++ fromEnvironment environment, (splitPath entry.1).2 ≠ []) ∧
    ∀ c, load tree file environment = .ok c →
      c.validate = .ok () ∧
      (∀ f : NumberField, f.get c = f.kept (f.given said environment) ∧
        (f.get c = f.given said environment ↔
          (f = .port → f.given said environment < portBound))) ∧
      (∀ f : TextField, f.get c = f.taken said environment ∧
        (f.get c = f.given said environment ↔
          ∀ v, inEnvironment? environment f.name = some v → respelled v = v)) ∧
      ∀ tree' file' said' environment' c', fileSettings tree' file' = .ok said' →
        Fitting said' environment' → load tree' file' environment' = .ok c' →
        (∀ f : NumberField, said? said f.name = said? said' f.name →
          inEnvironment? environment f.name = inEnvironment? environment' f.name →
            f.get c = f.get c') ∧
        ∀ f : TextField, said? said f.name = said? said' f.name →
          inEnvironment? environment f.name = inEnvironment? environment' f.name →
            f.get c = f.get c' := by
  refine ⟨?_, ?_⟩
  · intro herror
    apply Decidable.byContradiction
    intro hnone
    have hload := hf.load_eq hs fun entry he =>
      Decidable.byContradiction fun hsteps => hnone ⟨entry, he, hsteps⟩
    rw [herror] at hload
    cases hv : (assembled said environment).validate with
    | ok u =>
      rw [hv] at hload
      cases hload
    | error e =>
      rw [hv] at hload
      cases hload
  · intro c h
    obtain ⟨rfl, hv⟩ := hf.of_load hs h
    refine ⟨hv, ?_, ?_, ?_⟩
    · intro f
      rw [f.get_assembled, NumberField.kept_eq_self_iff]
      exact ⟨rfl, .rfl⟩
    · intro f
      rw [f.get_assembled, TextField.taken_eq_given_iff]
      exact ⟨rfl, .rfl⟩
    · intro tree' file' said' environment' c' hs' hf' h'
      obtain ⟨rfl, -⟩ := hf'.of_load hs' h'
      constructor
      · intro f hsaid hvar
        rw [f.get_assembled, f.get_assembled, NumberField.given, NumberField.given, hsaid, hvar]
      · intro f hsaid hvar
        rw [f.get_assembled, f.get_assembled, TextField.taken, TextField.taken, TextField.below,
          TextField.below, hsaid, hvar]

/-- What a configuration file says. -/
def written : Json.Value := .object [("port", .natural 4040), ("documents_root", .string "docs")]

/-- A tree with a configuration file under the usual name. -/
def configTree : Tree where
  entries := [⟨[], Utf8.encode "config.json", .file ⟨0, Utf8.encode written.render, 0⟩⟩]
  cwd := []
  distinct := by simp
  rooted := by simp

theorem fileSettings_configTree :
    fileSettings configTree none =
      .ok [("documents_root", .scalar (some "config.json") (.text "docs")),
        ("port", .scalar (some "config.json") (.integer 4040))] := by
  let p : Path := ⟨false, [.name (Utf8.encode "config.json")], false⟩
  have hfind : find? configTree usualFile = some (p, .json) := by decide +kernel
  have horigin : origin configTree p = "config.json" := by decide +kernel
  have hbytes : configTree.readBytes p = .ok (Utf8.encode written.render) := rfl
  have hfits : Json.Fits 127 written := by
    apply Json.Fits.object
    intro m hm
    simp only [List.mem_cons, List.not_mem_nil, or_false] at hm
    rcases hm with rfl | rfl
    · exact .number (show 4040 < Json.wordLimit by decide)
    · exact .string "docs"
  have hread : Json.read written.render.toList =
      .ok (.object [("documents_root", .string "docs"), ("port", .natural 4040)]) := by
    rw [Json.Value.render, String.toList_ofList, Json.read_write hfits]
    rfl
  rw [fileSettings, fromFile, hfind]
  dsimp only
  rw [Tree.readText?, hbytes]
  dsimp only
  rw [Utf8.decode?_encode]
  dsimp only
  rw [parse, hread, horigin]
  rfl

/-- A port from the environment, a root from the file, and a root with a slash in it. -/
theorem loaded_as_given_iff_layers :
    ∃ said, fileSettings configTree none = .ok said ∧
      Fitting said [("RAX_DOCS_PORT", "3131"), ("rax_docs_settings_root", "7/8")] ∧
      ∃ c, load configTree none [("RAX_DOCS_PORT", "3131"), ("rax_docs_settings_root", "7/8")] =
          .ok c ∧
        c.validate = .ok () ∧ c.port = 3131 ∧ c.documentsRoot = "docs" ∧
        c.settingsRoot = "7/8" := by
  have hf : Fitting [("documents_root", .scalar (some "config.json") (.text "docs")),
      ("port", .scalar (some "config.json") (.integer 4040))]
      [("RAX_DOCS_PORT", "3131"), ("rax_docs_settings_root", "7/8")] := by
    refine ⟨?_, ?_, ?_⟩
    · intro f s h
      cases f with
      | port =>
        cases h
        exact ⟨_, 4040, rfl, by decide⟩
      | _ => cases h
    · intro f s h
      cases f with
      | documentsRoot =>
        cases h
        exact ⟨_, _, rfl⟩
      | _ => cases h
    · intro f v h
      cases f with
      | port =>
        cases h
        exact ⟨3131, by decide⟩
      | _ => cases h
  have hassembled : assembled [("documents_root", .scalar (some "config.json") (.text "docs")),
      ("port", .scalar (some "config.json") (.integer 4040))]
      [("RAX_DOCS_PORT", "3131"), ("rax_docs_settings_root", "7/8")] =
        { port := 3131, documentsRoot := "docs", settingsRoot := "7/8" } := by decide +kernel
  have hload := hf.load_eq fileSettings_configTree (by decide +kernel)
  rw [hassembled] at hload
  obtain ⟨-, hloaded⟩ := loaded_as_given_iff fileSettings_configTree hf
  obtain ⟨hv, hnumbers, htexts, -⟩ := hloaded _ hload
  have hport := (hnumbers .port).2.2 fun _ => by decide
  have hroot := (htexts .settingsRoot).2.2 fun v h => by
    cases h
    exact respelled_of_slash (by decide)
  exact ⟨_, fileSettings_configTree, hf, _, hload, hv, hport, rfl, hroot⟩

/-- **A root given as `007` becomes the directory `7`, and port 65537 becomes port 1.** -/
theorem loaded_other_than_given :
    (∃ c, load .empty none [("RAX_DOCS_DOCUMENTS_ROOT", "007")] = .ok c ∧
      TextField.documentsRoot.given [] [("RAX_DOCS_DOCUMENTS_ROOT", "007")] = "007" ∧
      c.documentsRoot = "7") ∧
    ∃ c, load .empty none [("RAX_DOCS_PORT", "65537")] = .ok c ∧
      NumberField.port.given [] [("RAX_DOCS_PORT", "65537")] = 65537 ∧ c.port = 1 :=
  ⟨⟨{ documentsRoot := "7" }, rfl, by decide, rfl⟩, { port := 1 }, rfl, by decide, rfl⟩

end LineStore.Config
