import LineStore.Proofs.Text.Words
import LineStore.Protocol.Command

/-!
# Writing a command and reading it back

`render?` writes the line of a command and `parse` reads one. A command comes back from its own line
if nothing in it is mistaken for what is around it (`Command.WellFormed`): words where the line is
cut at blanks, no space where it is cut at a space, no line break at the end of what goes up to the
end of the line. These are also the only commands that any line is read as, so reading, writing and
reading again is reading once.

What a line holds besides its verb is read by that verb alone (`Verb.read`), so there is one lemma
for each direction: what a verb makes of what its own commands write (`exists_phrase`), and what it
makes of any line at all (`sound_read`).
-/

namespace LineStore

namespace Numeral

variable {bound n : Nat}

/-- A number that is small enough is read back from its digits. -/
theorem read?_write (h : n < bound) : read? bound (write n) = some n := by
  have plain : ∀ rest, write n ≠ '+' :: rest := by
    intro rest hw
    have hplus : '+' ∈ write n := by simp [hw]
    exact not_mem_write (by decide) hplus
  have hbody : read? bound (write n) = (digits? (write n)).filter (· < bound) := by
    unfold read?
    split
    · exact absurd ‹_› (plain _)
    · rfl
  rw [hbody, digits?_write]
  simp [h]

theorem lt_of_read? {s : List Char} (h : read? bound s = some n) : n < bound := by
  have hf := (Option.filter_eq_some_iff.1 h).2
  simpa using hf

end Numeral

namespace Verb

/-- What a verb makes of the rest of its line. -/
def read : Verb → List Char → Command
  | getset, arg => Command.parseGetSettings arg
  | putset, arg => Command.parsePutSettings arg
  | data, arg => Command.parseData arg
  | list, arg => .list (if arg = [] then none else some (String.ofList arg))
  | get, arg => Command.parseNamed .get arg
  | del, arg => Command.parseNamed .delete arg
  | put, arg => Command.parsePut arg
  | subscribe, _ => .subscribe
  | ready, _ => .ready
  | quit, _ => .quit

theorem capitals_word (v : Verb) : Text.capitals v.word = v.word := by cases v <;> decide

/-- A verb is the same in any case of its letters. -/
theorem ofWord?_of_capitals {v : Verb} {word : List Char} (h : Text.capitals word = v.word) :
    ofWord? word = some v := by
  rw [ofWord?, h, ← capitals_word v]
  exact ofWord?_word v

theorem not_mem_word {c : Char} (hs : c = ' ' ∨ Text.isLineEnd c = true) (v : Verb)
    {word : List Char} (h : Text.capitals word = v.word) : c ∉ word := by
  intro hc
  -- Capitals change neither spaces nor line breaks, and no verb holds any.
  have hu : c.toUpper ∈ v.word := by
    rw [← h]
    exact List.mem_map_of_mem hc
  have plain : ∀ v : Verb, ' ' ∉ v.word ∧ '\r' ∉ v.word ∧ '\n' ∉ v.word := by
    intro v
    cases v <;> decide
  have hplain := plain v
  simp only [Text.isLineEnd, Bool.or_eq_true, decide_eq_true_eq] at hs
  rcases hs with rfl | rfl | rfl
  · exact hplain.1 hu
  · exact hplain.2.1 hu
  · exact hplain.2.2 hu

end Verb

namespace Command

open Text

variable {arg raw word : List Char} {v : Verb}

theorem parse_eq (raw : List Char) :
    parse raw = ((Verb.ofWord? (cut ' ' (dropLineEnd raw)).1).map fun v =>
      v.read (cut ' ' (dropLineEnd raw)).2).getD .unknown := by
  unfold parse
  obtain ⟨word, arg⟩ := cut ' ' (dropLineEnd raw)
  dsimp only
  cases Verb.ofWord? word with
  | none => rfl
  | some v => cases v <;> rfl

/-! ## From a command to its line and back -/

/-- A command that there is a line for. -/
def WellFormed : Command → Prop
  | getSettings key level => IsWord key.toList ∧ IsWord level.toList
  | putSettings key level client length =>
    IsWord key.toList ∧ IsWord level.toList ∧ IsWord client.toList ∧ length < lengthLimit
  | data type source => type.toList ≠ [] ∧ ' ' ∉ type.toList ∧ Trimmed source.toList
  | list none => True
  | list (some search) => search.toList ≠ [] ∧ Trimmed search.toList
  | get name => name.toList ≠ [] ∧ Trimmed name.toList
  | put name _ length => name.toList ≠ [] ∧ Trimmed name.toList ∧ length < lengthLimit
  | delete name => name.toList ≠ [] ∧ Trimmed name.toList
  | subscribe => True
  | ready => True
  | quit => True
  | malformed _ => False
  | unknown => False

/-- **What a command is written as, and what its verb makes of that.** -/
theorem exists_phrase {c : Command} (h : c.WellFormed) :
    ∃ v args, c.render? = some (phrase v args) ∧ (∀ arg, args.getLast? = some arg → Trimmed arg) ∧
      v.read (args.flatMap (' ' :: ·)).tail = c := by
  cases c with
  | getSettings key level =>
    obtain ⟨hk, hl⟩ := h
    refine ⟨.getset, [key.toList, level.toList], rfl, by simpa using hl.trimmed, ?_⟩
    rw [Verb.read, parseGetSettings, words_joined (by simpa using ⟨hk, hl⟩)]
    simp
  | putSettings key level client length =>
    obtain ⟨hk, hl, hc, hn⟩ := h
    have hd : IsWord (Numeral.write length) := isWord_write length
    refine ⟨.putset, [key.toList, level.toList, client.toList, Numeral.write length], rfl,
      by simpa using hd.trimmed, ?_⟩
    rw [Verb.read, parsePutSettings, words_joined (by simpa using ⟨hk, hl, hc, hd⟩)]
    simp [Numeral.read?_write hn]
  | data type source =>
    obtain ⟨hne, ht, hs⟩ := h
    refine ⟨.data, [type.toList, source.toList], rfl, by simpa using hs, ?_⟩
    simp [Verb.read, parseData, cut_append ht, hne]
  | list search =>
    cases search with
    | none => exact ⟨.list, [], rfl, by simp, by simp [Verb.read]⟩
    | some search =>
      obtain ⟨hne, hs⟩ := h
      exact ⟨.list, [search.toList], rfl, by simpa using hs, by simp [Verb.read, hne]⟩
  | get name =>
    obtain ⟨hne, hn⟩ := h
    exact ⟨.get, [name.toList], rfl, by simpa using hn, by simp [Verb.read, parseNamed, hne]⟩
  | delete name =>
    obtain ⟨hne, hn⟩ := h
    exact ⟨.del, [name.toList], rfl, by simpa using hn, by simp [Verb.read, parseNamed, hne]⟩
  | put name overwrite length =>
    obtain ⟨hne, hn, hl⟩ := h
    have hspace : ' ' ∉ Numeral.write length := Numeral.not_mem_write (by decide)
    cases overwrite with
    | true =>
      refine ⟨.put, [['t', 'r', 'u', 'e'], Numeral.write length, name.toList], rfl,
        by simpa using hn, ?_⟩
      simp [Verb.read, parsePut, cut?, cut?_append _ hspace, Numeral.read?_write hl, hne, capitals]
    | false =>
      refine ⟨.put, [['f', 'a', 'l', 's', 'e'], Numeral.write length, name.toList], rfl,
        by simpa using hn, ?_⟩
      simp [Verb.read, parsePut, cut?, cut?_append _ hspace, Numeral.read?_write hl, hne, capitals]
  | subscribe => exact ⟨.subscribe, [], rfl, by simp, rfl⟩
  | ready => exact ⟨.ready, [], rfl, by simp, rfl⟩
  | quit => exact ⟨.quit, [], rfl, by simp, rfl⟩
  | malformed usage => exact h.elim
  | unknown => exact h.elim

/-- A phrase ends as the last thing in it does, and a verb ends in no line break. -/
theorem trimmed_phrase {args : List (List Char)} (hw : capitals word = v.word)
    (hl : ∀ arg, args.getLast? = some arg → Trimmed arg) :
    Trimmed (word ++ args.flatMap (' ' :: ·)) := by
  rcases List.eq_nil_or_concat args with rfl | ⟨front, last, rfl⟩
  · intro c hc
    have hm : c ∈ word := List.mem_of_getLast? (by simpa using hc)
    cases hb : isLineEnd c with
    | false => rfl
    | true => exact absurd hm (Verb.not_mem_word (.inr hb) v hw)
  · have hlast : Trimmed last := hl last (by simp)
    have hphrase : word ++ (front.concat last).flatMap (' ' :: ·) =
        (word ++ front.flatMap (' ' :: ·) ++ [' ']) ++ last := by simp
    rw [hphrase]
    by_cases hn : last = []
    · rw [hn, List.append_nil, trimmed_append (by simp)]
      decide
    · exact (trimmed_append hn).2 hlast

/-- **What is behind a verb is left to it**, whatever the case of the verb and the end of the
line. -/
theorem parse_phrase {args : List (List Char)} {ends : List Char} (hw : capitals word = v.word)
    (hl : ∀ arg, args.getLast? = some arg → Trimmed arg)
    (he : ∀ c ∈ ends, isLineEnd c = true) :
    parse (word ++ args.flatMap (' ' :: ·) ++ ends) = v.read (args.flatMap (' ' :: ·)).tail := by
  have hline : dropLineEnd (word ++ args.flatMap (' ' :: ·) ++ ends) =
      word ++ args.flatMap (' ' :: ·) := dropLineEnd_append (trimmed_phrase hw hl) he
  have hspace : ' ' ∉ word := Verb.not_mem_word (.inl rfl) v hw
  rw [parse_eq, hline, cut_joined hspace, Verb.ofWord?_of_capitals hw]
  rfl

/-! ## From a line to its command and back -/

/-- A command that there is a line for, or one that was found fault with. -/
def Sound (c : Command) : Prop := c.WellFormed ∨ ∃ usage, c = .malformed usage

theorem sound_parseGetSettings (arg : List Char) : (parseGetSettings arg).Sound := by
  have hword : ∀ w ∈ words arg, IsWord w := fun w => isWord_of_mem_words
  unfold parseGetSettings
  split
  · rename_i key hk
    have hd : IsWord Settings.defaultLevel.toList := by decide +kernel
    exact .inl ⟨by simpa using hword key (by simp [hk]), hd⟩
  · rename_i key level hk
    rw [hk] at hword
    exact .inl (by simpa [WellFormed] using hword)
  · exact .inr ⟨_, rfl⟩

theorem sound_parsePutSettings (arg : List Char) : (parsePutSettings arg).Sound := by
  have hword : ∀ w ∈ words arg, IsWord w := fun w => isWord_of_mem_words
  unfold parsePutSettings
  split
  · rename_i key level client length hk
    rw [hk] at hword
    split
    · rename_i hn
      refine .inl ⟨?_, ?_, ?_, Numeral.lt_of_read? hn⟩
      all_goals simp only [String.toList_ofList]
      all_goals exact hword _ (by simp)
    · exact .inr ⟨_, rfl⟩
  · exact .inr ⟨_, rfl⟩

theorem wellFormed_parseData (h : Trimmed arg) : (parseData arg).WellFormed := by
  have hspace : ' ' ∉ (cut ' ' arg).1 := not_mem_cut arg
  have htype : (if (cut ' ' arg).1 = [] then Dictionaries.fileType
        else String.ofList (cut ' ' arg).1).toList ≠ [] ∧
      ' ' ∉ (if (cut ' ' arg).1 = [] then Dictionaries.fileType
        else String.ofList (cut ' ' arg).1).toList := by
    split
    · decide +kernel
    · rename_i hne
      simpa using ⟨hne, hspace⟩
  have hsource : Trimmed (String.ofList (cut ' ' arg).2).toList := by
    rw [String.toList_ofList]
    exact h.cut
  exact ⟨htype.1, htype.2, hsource⟩

theorem sound_parseNamed {command : String → Command} (h : Trimmed arg)
    (hc : ∀ name : String, name.toList ≠ [] → Trimmed name.toList → (command name).WellFormed) :
    (parseNamed command arg).Sound := by
  unfold parseNamed
  split
  · exact .inr ⟨_, rfl⟩
  · rename_i hne
    exact .inl (hc _ (by simpa using hne) (by simpa using h))

theorem sound_parsePut (h : Trimmed arg) : (parsePut arg).Sound := by
  unfold parsePut
  split
  · exact .inr ⟨_, rfl⟩
  · rename_i overwrite rest hc
    have hrest : Trimmed rest := h.after hc
    split
    · exact .inr ⟨_, rfl⟩
    · rename_i length name hc
      have hname : Trimmed name := hrest.after hc
      split
      · exact .inr ⟨_, rfl⟩
      · rename_i n hn
        split
        · exact .inr ⟨_, rfl⟩
        · rename_i hne
          exact .inl ⟨by simpa using hne, by simpa using hname, Numeral.lt_of_read? hn⟩

/-- **A verb makes a command that there is a line for**, or finds fault with what it is given. -/
theorem sound_read (v : Verb) (h : Trimmed arg) : (v.read arg).Sound := by
  cases v with
  | getset => exact sound_parseGetSettings arg
  | putset => exact sound_parsePutSettings arg
  | data => exact .inl (wellFormed_parseData h)
  | list =>
    left
    show (list (if arg = [] then none else some (String.ofList arg))).WellFormed
    split
    · trivial
    · rename_i hne
      exact ⟨by simpa using hne, by simpa using h⟩
  | get => exact sound_parseNamed h fun _ hne ht => ⟨hne, ht⟩
  | del => exact sound_parseNamed h fun _ hne ht => ⟨hne, ht⟩
  | put => exact sound_parsePut h
  | subscribe => exact .inl trivial
  | ready => exact .inl trivial
  | quit => exact .inl trivial

/-- What a line is read as, if it is understood, has a line of its own. -/
theorem wellFormed_parse (hm : ∀ usage, parse raw ≠ .malformed usage)
    (hu : parse raw ≠ .unknown) : (parse raw).WellFormed := by
  have heq := parse_eq raw
  cases hv : Verb.ofWord? (cut ' ' (dropLineEnd raw)).1 with
  | none =>
    rw [hv] at heq
    exact absurd heq hu
  | some v =>
    rw [hv, Option.map_some, Option.getD_some] at heq
    rw [heq]
    rcases sound_read v (trimmed_dropLineEnd raw).cut with hw | ⟨usage, he⟩
    · exact hw
    · exact absurd (heq.trans he) (hm usage)

/-- A command's line, and the line with its verb in another case and line breaks behind it. -/
theorem parse_of_render? {c : Command} (h : c.WellFormed) :
    ∃ line, c.render? = some line ∧ parse line = c ∧ ∀ word ends,
      capitals word = (cut ' ' line).1 → (∀ x ∈ ends, isLineEnd x = true) →
        parse (word ++ line.drop word.length ++ ends) = c := by
  obtain ⟨v, args, hr, hl, hread⟩ := exists_phrase h
  refine ⟨phrase v args, hr, ?_, ?_⟩
  · have hp : parse (phrase v args ++ []) = v.read (args.flatMap (' ' :: ·)).tail :=
      parse_phrase (Verb.capitals_word v) hl (by simp)
    rwa [List.append_nil, hread] at hp
  · intro word ends hw he
    have hspace : ' ' ∉ v.word := Verb.not_mem_word (.inl rfl) v (Verb.capitals_word v)
    have hw : capitals word = v.word := by rw [hw, phrase, cut_joined hspace]
    have hlength : word.length = v.word.length := by rw [← hw, capitals, List.length_map]
    rw [phrase, hlength, List.drop_left, parse_phrase hw hl he, hread]

/-- **Reading undoes writing.** A command is read from its own line, in any case of the verb and with
any line breaks behind it; and whatever line is understood, it is read as a command that has a line
of its own, from which it is read again. -/
theorem parse_render :
    (∀ c : Command, c.WellFormed → ∃ line, c.render? = some line ∧ ∀ word ends,
      capitals word = (cut ' ' line).1 → (∀ x ∈ ends, isLineEnd x = true) →
        parse (word ++ line.drop word.length ++ ends) = c) ∧
    ∀ raw, (∀ usage, parse raw ≠ .malformed usage) → parse raw ≠ .unknown →
      (parse raw).WellFormed ∧
        ∃ line, (parse raw).render? = some line ∧ parse line = parse raw := by
  constructor
  · intro c hc
    obtain ⟨line, hr, -, hp⟩ := parse_of_render? hc
    exact ⟨line, hr, hp⟩
  · intro raw hm hu
    have hw : (parse raw).WellFormed := wellFormed_parse hm hu
    obtain ⟨line, hr, hp, -⟩ := parse_of_render? hw
    exact ⟨hw, line, hr, hp⟩

/-- A name with blanks around it, and the longest length, asked for in small letters. -/
theorem parse_render_blanks :
    (put " 7 a\t" true 18446744073709551615).WellFormed ∧
      parse "puT true 18446744073709551615  7 a\t\n\r\n".toList =
        put " 7 a\t" true 18446744073709551615 := by
  have hw : (put " 7 a\t" true 18446744073709551615).WellFormed :=
    ⟨by decide +kernel, by decide +kernel, by decide⟩
  obtain ⟨line, hr, hp⟩ := parse_render.1 _ hw
  have hline : some line = some "PUT true 18446744073709551615  7 a\t".toList :=
    hr.symm.trans (by decide +kernel)
  have hread := hp ['p', 'u', 'T'] ['\n', '\r', '\n'] (by rw [Option.some.inj hline]; decide +kernel)
    (by simp [isLineEnd])
  rw [Option.some.inj hline] at hread
  exact ⟨hw, hread⟩

end Command
end LineStore
