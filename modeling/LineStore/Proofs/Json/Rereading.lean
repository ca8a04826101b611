import LineStore.Json.Reader
import LineStore.Proofs.Json.Pieces

/-!
# Values read back

What is written of a value is read as that value, with the members of its objects in the order of
their names (`read_write`). This is so of values without fractions (`Fits`) whose brackets are not
nested too deep for the reader.

The reader goes in steps and counts them, the writer follows the value. Between the two stands
`Leads`: the steps from one state to another without their number. Wherever a value may begin, its
text leads to where the value has been put in its place (`Taken`), which is proved along the value;
that the steps suffice follows once, since each of them takes a character (`Leads.run_eq`).
-/

namespace LineStore.Json

/-! ## What is read of a value -/

/-- A value without fractions, its brackets at most so deep. -/
inductive Fits : Nat → Value → Prop
  | null {d : Nat} : Fits d .null
  | bool {d : Nat} (b : Bool) : Fits d (.bool b)
  | number {d : Nat} {number : Number} (h : number.Whole) : Fits d (.number number)
  | string {d : Nat} (s : String) : Fits d (.string s)
  | array {d : Nat} {items : List Value} (h : ∀ v ∈ items, Fits d v) : Fits (d + 1) (.array items)
  | object {d : Nat} {members : List (String × Value)} (h : ∀ m ∈ members, Fits d m.2) :
    Fits (d + 1) (.object members)

mutual

/-- The value as it is read back: the members of its objects go by their names, and a name keeps the
last of its values. -/
def Value.ordered : Value → Value
  | .null => .null
  | .bool b => .bool b
  | .number n => .number n
  | .string s => .string s
  | .array items => .array (orderedItems items)
  | .object members => .object (Members.ofList (orderedMembers members))

def orderedItems : List Value → List Value
  | [] => []
  | item :: items => item.ordered :: orderedItems items

def orderedMembers : List (String × Value) → List (String × Value)
  | [] => []
  | (name, value) :: members => (name, value.ordered) :: orderedMembers members

end

theorem orderedItems_eq_map (items : List Value) :
    orderedItems items = items.map Value.ordered := by
  induction items with
  | nil => rfl
  | cons item items ih => rw [orderedItems, ih, List.map_cons]

/-! ## Steps -/

namespace Reader

/-- The reader gets from a state and a text to others in steps that each take something. -/
inductive Leads : State → List Char → State → List Char → Prop
  | refl (state : State) (s : List Char) : Leads state s state s
  | step {frames : List Frame} {mode : Mode} {next last : State} {s t rest : List Char}
      (hs : step frames mode (skipBlanks s) = .ok (next, t)) (ht : t.length < s.length)
      (h : Leads next t last rest) : Leads (.open frames mode) s last rest

/-- Whether a value may come next. -/
inductive Begins : Mode → List Frame → Prop
  | value {frames : List Frame} : Begins .value frames
  | first {frames : List Frame} (items : List Value) : Begins .first (.array items :: frames)
  | another {frames : List Frame} (items : List Value) : Begins .another (.array items :: frames)

variable {d : Nat} {v : Value} {items : List Value} {members : List (String × Value)}
  {frames : List Frame} {mode : Mode} {state next last : State} {s t rest : List Char} {c : Char}

theorem Leads.trans (h : Leads state s next t) (h' : Leads next t last rest) :
    Leads state s last rest := by
  induction h with
  | refl => exact h'
  | step hs ht _ ih => exact .step hs ht (ih h')

/-- There are enough steps for a text if there is one for each character and one more. -/
theorem Leads.run_eq {limit : Nat} (h : Leads (.open frames mode) s (.closed v) rest)
    (hl : s.length < limit) : run limit frames mode s = .ok (v, rest) := by
  -- The induction goes from state to state, so both ends become variables first.
  generalize hs : State.open frames mode = state at h
  generalize hv : State.closed v = last at h
  induction h generalizing frames mode limit with
  | refl =>
    rw [← hs] at hv
    cases hv
  | @step _ _ next _ t _ _ hstep ht h ih =>
    cases hs
    obtain ⟨limit, rfl⟩ : ∃ more, limit = more + 1 := ⟨limit - 1, by omega⟩
    rw [run, hstep]
    cases next with
    | closed w =>
      cases h
      cases hv
      rfl
    | «open» frames mode => exact ih (by omega) rfl hv

/-- A step from a text that starts with no blank. -/
theorem Leads.one (hblank : isBlank c = false)
    (h : Reader.step frames mode (c :: s) = .ok (next, rest)) (hr : rest.length ≤ s.length) :
    Leads (.open frames mode) (c :: s) next rest := by
  have hskip : skipBlanks (c :: s) = c :: s := List.dropWhile_cons_of_neg (by simp [hblank])
  refine .step ?_ (Nat.lt_succ_of_le hr) (.refl _ _)
  rw [hskip]
  exact h

/-- A value begins in the same way wherever it may come. -/
theorem Leads.begin (hb : Begins mode frames) (hblank : isBlank c = false) (hend : c ≠ ']')
    (h : stepValue frames (c :: s) = .ok (next, rest)) (hr : rest.length ≤ s.length) :
    Leads (.open frames mode) (c :: s) next rest := by
  refine .one hblank ?_ hr
  cases hb with
  | value => exact h
  | first items => exact (if_neg hend).trans h
  | another items => exact (if_neg hend).trans h

/-- A comma leads to the next item or member. -/
theorem leads_comma (frame : Frame) (frames : List Frame) (s : List Char) :
    Leads (.open (frame :: frames) .next) (',' :: s) (.open (frame :: frames) .another) s := by
  cases frame with
  | array items => exact .one (by decide) rfl (Nat.le_refl _)
  | object members name => exact .one (by decide) rfl (Nat.le_refl _)

/-! ## Values without brackets -/

/-- Where a value may come, its text leads to where the value is in its place, if there are still
`d` brackets to go. -/
def Taken (d : Nat) (v : Value) : Prop :=
  ∀ frames mode rest, frames.length + d < depthLimit → Begins mode frames → Stops rest →
    Leads (.open frames mode) (write v ++ rest) (deliver v.ordered frames) rest

theorem taken_string (text : String) : Taken d (.string text) := by
  intro frames mode rest _ hb _
  have hread : stepValue frames ('"' :: (text.toList.flatMap escape ++ '"' :: rest)) =
      .ok (deliver (.string text) frames, rest) := by
    rw [stepValue]
    simp [readString_flatMap_escape, Except.map]
  rw [write, writeString_append]
  exact .begin hb (by decide) (by decide) hread (by simp; omega)

theorem stepValue_digit (hc : c.isDigit = true) :
    stepValue frames (c :: s) =
      (readNumber false (c :: s)).map fun (n, rest) => (deliver (.number n) frames, rest) := by
  have hne : ∀ e : Char, e.isDigit = false → c ≠ e := fun _ => ne_of_isDigit hc
  rw [stepValue, if_neg (hne _ (by decide)), if_neg (hne _ (by decide)), if_neg (hne _ (by decide)),
    if_neg (hne _ (by decide)), if_pos hc]

theorem taken_number {number : Number} (h : number.Whole) : Taken d (.number number) := by
  intro frames mode rest _ hb hr
  cases number with
  | natural n =>
    obtain ⟨c, digits, hw, hc⟩ := Numeral.write_eq_cons n
    have hread := readNumber_write false h rfl hr
    rw [hw] at hread
    show Leads _ (Numeral.write n ++ rest) _ _
    rw [hw]
    refine .begin hb (isBlank_of_isDigit hc) (ne_of_isDigit hc (by decide)) ?_ (by simp)
    show stepValue frames (c :: (digits ++ rest)) = _
    rw [stepValue_digit hc]
    show (readNumber false (c :: digits ++ rest)).map _ = _
    rw [hread]
    rfl
  | negative n =>
    have hn : whole? true n = some (.negative n) := if_pos h
    have hlt : n < wordLimit := Nat.lt_of_le_of_lt h.2 (by decide)
    have hread := readNumber_write true hlt hn hr
    refine .begin (s := Numeral.write n ++ rest) hb (by decide) (by decide) ?_ (by simp)
    show (readNumber true (Numeral.write n ++ rest)).map _ = _
    rw [hread]
    rfl
  | double bits => exact h.elim

/-! ## Arrays -/

theorem stops_writeItems (items : List Value) (rest : List Char) :
    Stops (writeItems items ++ rest) := by
  cases items with
  | nil => exact stops_cons (.inr (.inl rfl)) rest
  | cons item items => exact stops_cons (.inl rfl) _

/-- There is room for one more bracket. -/
theorem enter_eq {frame : Frame} (h : frames.length + (d + 1) < depthLimit) (s rest : List Char) :
    enter frame frames s rest = .ok (.open (frame :: frames) .first, rest) :=
  if_neg (by omega)

/-- The items of an array after the first, and its end. -/
theorem leads_items (h : ∀ v ∈ items, Taken d v) (hd : frames.length + (d + 1) < depthLimit)
    (done : List Value) (rest : List Char) :
    Leads (.open (.array done :: frames) .next) (writeItems items ++ rest)
      (deliver (.array (done.reverse ++ orderedItems items)) frames) rest := by
  induction items generalizing done with
  | nil =>
    rw [orderedItems, List.append_nil]
    exact .one (by decide) rfl (Nat.le_refl _)
  | cons item items ih =>
    have hitem := h item List.mem_cons_self (.array done :: frames) .another
      (writeItems items ++ rest) (by rw [List.length_cons]; omega) (.another done)
      (stops_writeItems items rest)
    have hmore := ih (fun v hv => h v (List.mem_cons_of_mem _ hv)) (item.ordered :: done)
    rw [List.reverse_cons, List.append_assoc] at hmore
    rw [writeItems, List.cons_append, List.cons_append, List.append_assoc]
    exact (leads_comma _ _ _).trans (hitem.trans hmore)

theorem taken_array (h : ∀ v ∈ items, Taken d v) : Taken (d + 1) (.array items) := by
  intro frames mode rest hd hb _
  have hbegin : ∀ s,
      Leads (.open frames mode) ('[' :: s) (.open (.array [] :: frames) .first) s := by
    intro s
    exact .begin hb (by decide) (by decide) (enter_eq hd ('[' :: s) s) (Nat.le_refl _)
  cases items with
  | nil => exact (hbegin (']' :: rest)).trans (.one (by decide) rfl (Nat.le_refl _))
  | cons item items =>
    have hitem := h item List.mem_cons_self (.array [] :: frames) .first
      (writeItems items ++ rest) (by rw [List.length_cons]; omega) (.first [])
      (stops_writeItems items rest)
    have hmore := leads_items (fun v hv => h v (List.mem_cons_of_mem _ hv)) hd [item.ordered] rest
    rw [write, List.cons_append, List.cons_append, List.append_assoc]
    exact (hbegin _).trans (hitem.trans hmore)

/-! ## Objects -/

theorem stops_writeMembers (members : List (String × Value)) (rest : List Char) :
    Stops (writeMembers members ++ rest) := by
  cases members with
  | nil => exact stops_cons (.inr (.inr rfl)) rest
  | cons m members => exact stops_cons (.inl rfl) _

theorem stepName_eq (done : Members) (name : String) (frames : List Frame) (rest : List Char) :
    stepName done frames (name.toList.flatMap escape ++ '"' :: ':' :: rest) =
      .ok (.open (.object done name :: frames) .value, rest) := by
  unfold stepName
  rw [readString_flatMap_escape]
  show (readColon (':' :: rest)).map _ = _
  rw [String.ofList_toList]
  rfl

/-- A member, from its name on. -/
theorem leads_member (done : Members) (old name : String) (hv : Taken d v)
    (hd : frames.length + (d + 1) < depthLimit) (hm : mode = .first ∨ mode = .another)
    (hr : Stops rest) :
    Leads (.open (.object done old :: frames) mode)
      (writeString name ++ (':' :: (write v ++ rest)))
      (.open (.object (done.insert name v.ordered) "" :: frames) .next) rest := by
  have hvalue := hv (.object done name :: frames) .value rest (by rw [List.length_cons]; omega)
    .value hr
  have hname := stepName_eq done name frames (write v ++ rest)
  rw [writeString_append]
  -- The name is read in the same way behind a brace and behind a comma.
  have hstep : step (.object done old :: frames) mode
      ('"' :: (name.toList.flatMap escape ++ '"' :: ':' :: (write v ++ rest))) =
        .ok (.open (.object done name :: frames) .value, write v ++ rest) := by
    rcases hm with rfl | rfl
    · exact hname
    · exact hname
  refine (Leads.one (by decide) hstep ?_).trans hvalue
  simp
  omega

/-- The members of an object after the first, and its end. -/
theorem leads_members (h : ∀ m ∈ members, Taken d m.2) (hd : frames.length + (d + 1) < depthLimit)
    (done : Members) (rest : List Char) :
    let read := (orderedMembers members).foldl (fun m (n, v) => Members.insert n v m) done
    Leads (.open (.object done "" :: frames) .next) (writeMembers members ++ rest)
      (deliver (.object read) frames) rest := by
  induction members generalizing done with
  | nil => exact .one (by decide) rfl (Nat.le_refl _)
  | cons m members ih =>
    obtain ⟨name, value⟩ := m
    have hmember := leads_member done "" name (h _ List.mem_cons_self)
      hd (.inr rfl) (stops_writeMembers members rest)
    have hmore := ih (fun v hv => h v (List.mem_cons_of_mem _ hv)) (done.insert name value.ordered)
    rw [writeMembers, List.append_assoc, List.append_assoc, List.cons_append, List.cons_append]
    exact (leads_comma _ _ _).trans (hmember.trans hmore)

theorem taken_object (h : ∀ m ∈ members, Taken d m.2) : Taken (d + 1) (.object members) := by
  intro frames mode rest hd hb _
  have hbegin : ∀ s,
      Leads (.open frames mode) ('\x7b' :: s) (.open (.object [] "" :: frames) .first) s := by
    intro s
    exact .begin hb (by decide) (by decide) (enter_eq hd ('\x7b' :: s) s) (Nat.le_refl _)
  cases members with
  | nil => exact (hbegin ('\x7d' :: rest)).trans (.one (by decide) rfl (Nat.le_refl _))
  | cons m members =>
    obtain ⟨name, value⟩ := m
    have hmember := leads_member [] "" name (h _ List.mem_cons_self)
      hd (.inl rfl) (stops_writeMembers members rest)
    have hmore := leads_members (fun v hv => h v (List.mem_cons_of_mem _ hv)) hd
      (Members.insert name value.ordered []) rest
    rw [write, List.append_assoc, List.append_assoc, List.cons_append, List.cons_append]
    exact (hbegin _).trans (hmember.trans hmore)

/-! ## Any value -/

/-- **The text of a value is taken for that value wherever a value may come.** -/
theorem taken_of_fits (h : Fits d v) : Taken d v := by
  induction h with
  | null =>
    intro frames mode rest _ hb _
    exact .begin hb (by decide) (by decide) rfl (Nat.le_add_right _ 3)
  | bool b =>
    intro frames mode rest _ hb _
    cases b with
    | true => exact .begin hb (by decide) (by decide) rfl (Nat.le_add_right _ 3)
    | false => exact .begin hb (by decide) (by decide) rfl (Nat.le_add_right _ 4)
  | number h => exact taken_number h
  | string s => exact taken_string s
  | array _ ih => exact taken_array ih
  | object _ ih => exact taken_object ih

end Reader

/-- **What is written of a value is read as that value.** -/
theorem read_write {v : Value} (h : Fits 127 v) : read (write v) = .ok v.ordered := by
  have hl := Reader.taken_of_fits h [] .value [] (by decide) .value stops_nil
  rw [List.append_nil] at hl
  unfold read
  rw [hl.run_eq (Nat.lt_succ_self _)]
  rfl

end LineStore.Json
