import LineStore.Protocol.Reply
import LineStore.Proofs.Json.Rereading
import LineStore.Proofs.Protocol.Decoding
import LineStore.Store.Listing

/-!
# Announcements and listings read back

An announcement goes out in two written forms, its members in the order of their names or in the
order of the fields. The reader knows neither order. It fills a draft, member by member, and what
the draft holds depends on which members it met and not on when (`draft`): so it reads **the four
members in any order** (`read_write_permuted`), and the two forms are two cases of that.
-/

namespace LineStore

open Json

namespace Announcement

variable {a : Announcement} {d : Draft} {rest : List Char} {limit : Nat}

/-! ## Values where they are expected -/

theorem readText_writeString (s : String) (rest : List Char) :
    readText (writeString s ++ rest) = .ok (s, rest) := by
  rw [writeString_append]
  show (readString (s.toList.flatMap escape ++ '"' :: rest)).map _ = _
  rw [readString_flatMap_escape]
  show Except.ok (String.ofList s.toList, rest) = _
  rw [String.ofList_toList]

theorem readWhole_write {n : Nat} (h : n < UInt64.size) (hr : Stops rest) :
    readWhole (Numeral.write n ++ rest) = .ok (n, rest) := by
  obtain ⟨c, digits, hw, hc⟩ := Numeral.write_eq_cons n
  have hread := readNumber_write false h rfl hr
  have hskip : skipBlanks (c :: (digits ++ rest)) = c :: (digits ++ rest) :=
    List.dropWhile_cons_of_neg (by simp [isBlank_of_isDigit hc])
  rw [hw, List.cons_append] at hread ⊢
  unfold readWhole
  rw [hskip]
  dsimp only
  rw [if_neg (ne_of_isDigit hc (by decide)), if_pos hc, hread]

/-! ## Members -/

/-- The members of an announcement. -/
inductive Member
  | client
  | key
  | level
  | timestamp
  deriving DecidableEq

namespace Member

/-- The members in the order of the fields. -/
def all : List Member := [.client, .key, .level, .timestamp]

def name : Member → String
  | client => clientName
  | key => keyName
  | level => levelName
  | timestamp => timestampName

def value (a : Announcement) : Member → Value
  | client => .string a.client
  | key => .string a.key
  | level => .string a.level
  | timestamp => .natural a.timestamp

/-- The member of an announcement, as it stands in an object. -/
def of (a : Announcement) (m : Member) : String × Value := (m.name, m.value a)

end Member

/-- The draft of an announcement of which some members were met. -/
def draft (a : Announcement) (met : List Member) : Draft where
  client := if .client ∈ met then some a.client else none
  key := if .key ∈ met then some a.key else none
  level := if .level ∈ met then some a.level else none
  timestamp := if .timestamp ∈ met then some a.timestamp else none

theorem complete_draft {met : List Member} (h : ∀ m, m ∈ met) : (draft a met).complete = .ok a := by
  simp [draft, h, Draft.complete, pure, Except.pure, bind, Except.bind]

/-- A member that was not met before is put into the draft. -/
theorem readMember_of {m : Member} {met : List Member} (ha : a.timestamp < UInt64.size)
    (hm : m ∉ met) (hr : Stops rest) :
    readMember (draft a met) m.name (':' :: (write (m.value a) ++ rest)) =
      .ok (draft a (m :: met), rest) := by
  have hcolon : ∀ s, readColon (':' :: s) = .ok s := fun _ => rfl
  cases m with
  | client =>
    have hread := readText_writeString a.client rest
    simp [readMember, Member.name, Member.value, write, draft, hm, hcolon, hread, bind,
      Except.bind, pure, Except.pure]
  | key =>
    have hread := readText_writeString a.key rest
    simp [readMember, Member.name, Member.value, write, draft, hm, hcolon, hread, bind,
      Except.bind, pure, Except.pure, keyName, clientName]
  | level =>
    have hread := readText_writeString a.level rest
    simp [readMember, Member.name, Member.value, write, draft, hm, hcolon, hread, bind,
      Except.bind, pure, Except.pure, keyName, clientName, levelName]
  | timestamp =>
    have hread := readWhole_write ha hr
    simp [readMember, Member.name, Member.value, write, writeNumber, Value.natural, draft, hm,
      hcolon, hread, bind, Except.bind, pure, Except.pure, keyName, clientName, levelName,
      timestampName]

/-- One member, from where its name is found. -/
theorem readMembers_succ {m : Member} {met : List Member} {first : Bool} {s : List Char}
    (ha : a.timestamp < UInt64.size) (hm : m ∉ met) (hr : Stops rest)
    (hs : nextName first s =
      .ok (some (m.name.toList.flatMap escape ++ '"' :: ':' :: (write (m.value a) ++ rest)))) :
    readMembers (limit + 1) (draft a met) first s =
      readMembers limit (draft a (m :: met)) false rest := by
  rw [readMembers, hs]
  dsimp only
  rw [readString_flatMap_escape]
  dsimp only
  rw [String.ofList_toList, readMember_of ha hm hr]

/-- **The members that are left, in any order, complete the announcement.** -/
theorem readMembers_write {order met : List Member} (ha : a.timestamp < UInt64.size)
    (hp : (order ++ met).Perm Member.all) (hl : order.length < limit) (rest : List Char) :
    readMembers limit (draft a met) false (writeMembers (order.map (Member.of a)) ++ rest) =
      .ok (a, rest) := by
  induction order generalizing met limit with
  | nil =>
    obtain ⟨limit, rfl⟩ : ∃ more, limit = more + 1 := ⟨limit - 1, by omega⟩
    have hall : ∀ m, m ∈ met := fun m => hp.mem_iff.2 (by cases m <;> decide)
    show readMembers (limit + 1) _ false ('\x7d' :: rest) = _
    rw [readMembers]
    show (match (draft a met).complete with | _ => _) = _
    rw [complete_draft hall]
    rfl
  | cons m order ih =>
    obtain ⟨limit, rfl⟩ : ∃ more, limit = more + 1 := ⟨limit - 1, by omega⟩
    -- The order holds every member once, so what is to come was not met.
    have hm : m ∉ met := by
      have hnodup : (m :: order ++ met).Nodup := hp.nodup_iff.2 (by decide)
      rw [List.cons_append, List.nodup_cons, List.mem_append, not_or] at hnodup
      exact hnodup.1.2
    have hw : writeMembers ((m :: order).map (Member.of a)) ++ rest =
        ',' :: '"' :: (m.name.toList.flatMap escape ++ '"' :: ':' :: (write (m.value a) ++
          (writeMembers (order.map (Member.of a)) ++ rest))) := by
      simp [writeMembers, writeString, Member.of]
    rw [hw, readMembers_succ ha hm (Reader.stops_writeMembers _ rest) rfl]
    exact ih (List.perm_middle.trans hp) (Nat.lt_of_succ_lt_succ hl)

theorem length_lt_writeMembers (members : List (String × Value)) :
    members.length < (writeMembers members).length := by
  induction members with
  | nil => decide
  | cons m members ih =>
    rw [writeMembers, List.length_append, List.length_append, List.length_cons, List.length_cons]
    omega

theorem read_brace {s : List Char} (h : readMembers (s.length + 1) {} true s = .ok (a, [])) :
    read ('\x7b' :: s) = .ok a := by
  have hskip : skipBlanks ('\x7b' :: s) = '\x7b' :: s := rfl
  unfold read
  rw [hskip]
  dsimp only
  rw [if_neg (by decide), if_pos rfl, h]
  rfl

/-- **An announcement is read back, whatever the order of its members.** -/
theorem read_write_permuted {order : List Member} (ha : a.timestamp < UInt64.size)
    (hp : order.Perm Member.all) : read (write (.object (order.map (Member.of a)))) = .ok a := by
  cases order with
  | nil => exact absurd hp.length_eq (by decide)
  | cons m order =>
    have hw : write (.object ((m :: order).map (Member.of a))) =
        '\x7b' :: '"' :: (m.name.toList.flatMap escape ++ '"' :: ':' :: (write (m.value a) ++
          writeMembers (order.map (Member.of a)))) := by
      simp [write, writeString, Member.of]
    -- Only the first member has no comma in front; the others are left with one member met.
    have hstops := Reader.stops_writeMembers (order.map (Member.of a)) []
    have hlen := length_lt_writeMembers (order.map (Member.of a))
    have hrest : ∀ limit, order.length < limit →
        readMembers limit (draft a [m]) false (writeMembers (order.map (Member.of a))) =
          .ok (a, []) := by
      intro limit hl
      have h := readMembers_write ha ((List.perm_append_singleton m order).trans hp) hl []
      rwa [List.append_nil] at h
    rw [List.append_nil] at hstops
    rw [List.length_map] at hlen
    rw [hw]
    apply read_brace
    show readMembers (_ + 1) (draft a []) true _ = _
    rw [readMembers_succ ha List.not_mem_nil hstops rfl]
    apply hrest
    simp
    omega

/-! ## The two forms -/

theorem fits_object {order : List Member} (ha : a.timestamp < UInt64.size) :
    Fits 127 (.object (order.map (Member.of a))) := by
  apply Fits.object
  intro m hm
  obtain ⟨member, -, rfl⟩ := List.mem_map.1 hm
  cases member with
  | timestamp => exact .number ha
  | _ => exact .string _

theorem ordered_toValue (a : Announcement) : a.toValue.ordered = a.toValue := by
  have hl : ¬ levelName < keyName ∧ levelName ≠ keyName := by decide
  have hc : (¬ clientName < keyName ∧ clientName ≠ keyName) ∧
    ¬ clientName < levelName ∧ clientName ≠ levelName := by decide
  have ht : (¬ timestampName < keyName ∧ timestampName ≠ keyName) ∧
    (¬ timestampName < levelName ∧ timestampName ≠ levelName) ∧
    ¬ timestampName < clientName ∧ timestampName ≠ clientName := by decide
  simp [toValue, Value.ordered, orderedMembers, Members.ofList, Members.insert, Value.natural, hl,
    hc, ht]

theorem ordered_object (a : Announcement) :
    (Value.object (Member.all.map (Member.of a))).ordered = a.toValue := by
  have hk : keyName < clientName := by decide
  have hl : ¬ levelName < keyName ∧ levelName ≠ keyName ∧ levelName < clientName := by decide
  have ht : (¬ timestampName < keyName ∧ timestampName ≠ keyName) ∧
    (¬ timestampName < levelName ∧ timestampName ≠ levelName) ∧
    ¬ timestampName < clientName ∧ timestampName ≠ clientName := by decide
  simp [Member.all, Member.of, Member.name, Member.value, toValue, Value.ordered, orderedMembers,
    Members.ofList, Members.insert, Value.natural, hk, hl, ht]

end Announcement

/-! ## Listings -/

namespace ListEntry

/-- The entry that an object stands for. -/
def ofValue? (v : Value) : Option ListEntry :=
  match v.get? "name", v.get? "modified" with
  | some (.string name), some (.number (.natural modified)) => some ⟨name, modified⟩
  | _, _ => none

theorem ofValue?_ordered (e : ListEntry) : ofValue? e.toValue.ordered = some e := by
  have hn : "modified" < "name" ∧ ("name" == "modified") = false := by decide
  simp [toValue, Value.ordered, orderedMembers, Members.ofList, Members.insert, Value.natural,
    ofValue?, Value.get?, List.lookup_cons, hn]

theorem fits_renderAll {entries : List ListEntry} (h : ∀ e ∈ entries, e.modified < UInt64.size) :
    Fits 127 (.array (entries.map toValue)) := by
  apply Fits.array
  intro v hv
  obtain ⟨e, he, rfl⟩ := List.mem_map.1 hv
  apply Fits.object
  intro m hm
  simp only [List.mem_cons, List.not_mem_nil, or_false] at hm
  rcases hm with rfl | rfl
  · exact .string e.name
  · exact .number (h e he)

/-- **A listing is read back, entry by entry.** -/
theorem read_renderAll {entries : List ListEntry} (h : ∀ e ∈ entries, e.modified < UInt64.size) :
    ∃ items, Json.read (renderAll entries).toList = .ok (.array items) ∧
      items.map ofValue? = entries.map some := by
  have hread := read_write (fits_renderAll h)
  rw [Value.ordered, orderedItems_eq_map, List.map_map] at hread
  refine ⟨entries.map (Value.ordered ∘ toValue), ?_, ?_⟩
  · rw [renderAll, Value.render, String.toList_ofList]
    exact hread
  · rw [List.map_map]
    exact List.map_congr_left fun e _ => ofValue?_ordered e

end ListEntry

/-- **Announcements and listings come through their JSON text.** The line of an event is one line,
and what it says in JSON is read as the announcement that was made; so is the announcement written
with its members in the order of the fields. A listing is read as an array of objects that name the
same documents with the same times, in order. -/
theorem Announcement.read_back (a : Announcement) (entries : List ListEntry)
    (ha : a.timestamp < UInt64.size) (he : ∀ e ∈ entries, e.modified < UInt64.size) :
    (∃ text,
      (Wire.event a.event).toList = "EVENT settings-update ".toList ++ text ++ ['\r', '\n'] ∧
      '\n' ∉ "EVENT settings-update ".toList ++ text ++ ['\r'] ∧
      Json.read text = .ok a.toValue ∧ Announcement.read text = .ok a) ∧
    (Json.read a.render.toList = .ok a.toValue ∧ Announcement.read a.render.toList = .ok a) ∧
    ∃ items, Json.read (ListEntry.renderAll entries).toList = .ok (.array items) ∧
      items.map ListEntry.ofValue? = entries.map some := by
  have hsorted : a.toValue = .object ([.key, .level, .client, .timestamp].map (Member.of a)) := rfl
  have hrender : a.render.toList = write (.object (Member.all.map (Member.of a))) :=
    String.toList_ofList
  refine ⟨⟨write a.toValue, ?_, ?_, ?_, ?_⟩, ⟨?_, ?_⟩, ListEntry.read_renderAll he⟩
  · have hstart : "EVENT settings-update ".toList =
        Wire.eventWord ++ ' ' :: settingsTopic.toList ++ [' '] := by decide
    rw [Wire.event, String.toList_ofList, hstart]
    simp [event, Wire.lineEnd]
  · have hstart : '\n' ∉ "EVENT settings-update ".toList := by decide
    have hend : '\n' ∉ ['\r'] := by decide
    simp only [List.mem_append, not_or]
    exact ⟨⟨hstart, a.newline_not_mem_write⟩, hend⟩
  · have h := read_write (hsorted ▸ fits_object ha)
    rwa [ordered_toValue] at h
  · rw [hsorted]
    exact read_write_permuted ha (by decide)
  · rw [hrender, read_write (fits_object ha), ordered_object]
  · rw [hrender]
    exact read_write_permuted ha (.refl _)

/-- Quotes, backslashes, line breaks, control characters and characters of four bytes. -/
theorem Announcement.read_back_escapes :
    let a : Announcement := ⟨"\"\\\n\r\u0001", "🜚\u2028", "", 18446744073709551615⟩
    let e : ListEntry := ⟨"𝄞\".md", 0⟩
    a.timestamp < UInt64.size ∧ (∀ f ∈ [e], f.modified < UInt64.size) ∧
      (∃ text,
        (Wire.event a.event).toList = "EVENT settings-update ".toList ++ text ++ ['\r', '\n'] ∧
        Announcement.read text = .ok a) ∧
      Announcement.read a.render.toList = .ok a ∧
      ∃ items, Json.read (ListEntry.renderAll [e]).toList = .ok (.array items) ∧
        items.map ListEntry.ofValue? = [some e] := by
  intro a e
  have ha : a.timestamp < UInt64.size := by decide
  have he : ∀ f ∈ [e], f.modified < UInt64.size := by decide
  obtain ⟨⟨text, hline, -, -, hread⟩, ⟨-, hrender⟩, hlist⟩ := Announcement.read_back a [e] ha he
  exact ⟨ha, he, ⟨text, hline, hread⟩, hrender, hlist⟩

end LineStore
