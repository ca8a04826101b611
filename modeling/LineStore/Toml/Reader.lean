import LineStore.Toml.Number
import LineStore.Toml.Quoted
import LineStore.Toml.Table

/-!
# Reading TOML

A document is a list of lines: pairs of a key and a value, and headers of tables. A value may span
lines where brackets or threes of quotes hold it together. The pairs are gathered under the last
header before them, and when all is read the tables are put together.
-/

namespace LineStore.Toml

/-- The text with each line break of two characters folded to one. -/
def foldBreaks : List Char → List Char
  | '\r' :: '\n' :: rest => '\n' :: foldBreaks rest
  | c :: rest => c :: foldBreaks rest
  | [] => []

/-! ## Blanks and comments -/

def skipBlanks (s : List Char) : List Char := s.dropWhile isBlank

/-- Whether a character may stand in a comment. -/
def inComment (c : Char) : Bool := c = '\t' || ' ' ≤ c

/-- What follows the end of a line, before which only a comment may stand. -/
def endLine? (s : List Char) : Option (List Char) :=
  let s := match skipBlanks s with
    | '#' :: rest => rest.dropWhile inComment
    | s => s
  match s with
  | [] => some []
  | c :: rest => if c = '\n' then some rest else none

/-- What follows blanks, comments and line breaks, at most `limit` of them; nothing if a comment is
broken. -/
def skipLines? : Nat → List Char → Option (List Char)
  | 0, s => some s
  | limit + 1, s =>
    match skipBlanks s with
    | c :: rest =>
      if c = '\n' ∨ c = '#' then (endLine? (c :: rest)).bind (skipLines? limit)
      else some (c :: rest)
    | [] => some []

/-- What follows blanks, comments and line breaks. -/
def skipSpace? (s : List Char) : Option (List Char) := skipLines? (s.length + 1) s

/-! ## Keys -/

/-- One part of a key: a word, or a string on one line. -/
def keyPart? (s : List Char) : Option (String × List Char) :=
  match s with
  | [] => none
  | c :: rest =>
    if c = '"' ∨ c = '\'' then
      match readString? c rest with
      | some (text, false, rest) => some (String.ofList text, rest)
      | _ => none
    else (word? s).map fun (word, rest) => (String.ofList word, rest)

/-- The parts of a key after the first, at most `limit` of them, and what follows. -/
def keyTail? : Nat → List Char → Option (List String × List Char)
  | 0, _ => none
  | limit + 1, s =>
    match skipBlanks s with
    | '.' :: rest =>
      match keyPart? (skipBlanks rest) with
      | some (part, rest) => (keyTail? limit rest).map fun (parts, rest) => (part :: parts, rest)
      | none => none
    | s => some ([], s)

/-- A key with its parts, and what follows it and the blanks after it. -/
def key? (s : List Char) : Option (String × List String × List Char) := do
  let (part, rest) ← keyPart? s
  let (parts, rest) ← keyTail? (rest.length + 1) rest
  some (part, parts, rest)

/-! ## Values -/

mutual

/-- The value that a text begins with, in at most `limit` pieces. -/
def value? : Nat → List Char → Option (Draft × List Char)
  | 0, _ => none
  | _ + 1, [] => none
  | limit + 1, c :: rest =>
    if c = '"' ∨ c = '\'' then
      (readString? c rest).map fun (text, _, rest) => (.string (String.ofList text), rest)
    else if c = '[' then (items? limit rest).map fun (items, rest) => (.array items, rest)
    else if c = '\x7b' then
      match skipBlanks rest with
      | '\x7d' :: rest => some (.table false [], rest)
      | rest => (members? limit [] rest).map fun (members, rest) => (.table false members, rest)
    else if c = '+' then (word? rest).bind fun (word, rest) => number? word rest
    else bare? (c :: rest)

/-- The items of an array and its end. -/
def items? : Nat → List Char → Option (List Draft × List Char)
  | 0, _ => none
  | limit + 1, s => do
    let s ← skipSpace? s
    if s.head? = some ']' then some ([], s.tail)
    else
      let (item, s) ← value? limit s
      let s ← skipSpace? s
      match s with
      | ',' :: rest => (items? limit rest).map fun (items, rest) => (item :: items, rest)
      | ']' :: rest => some ([item], rest)
      | _ => none

/-- The members of a table on one line, after those in `done`, one at the least; and its end. -/
def members? : Nat → Drafts → List Char → Option (Drafts × List Char)
  | 0, _, _ => none
  | limit + 1, done, s => do
    let (part, parts, s) ← key? s
    match s with
    | '=' :: rest =>
      let (value, s) ← value? limit (skipBlanks rest)
      let done ← done.bind? part parts value
      match skipBlanks s with
      | '\x7d' :: rest => some (done, rest)
      | ',' :: rest => members? limit done (skipBlanks rest)
      | _ => none
    | _ => none

end

/-! ## Documents -/

/-- The header of a section, which has no members yet, after its first bracket; and what follows its
line. -/
def header? (s : List Char) : Option (Section × List Char) := do
  let (many, s) := match s with
    | '[' :: rest => (true, rest)
    | _ => (false, s)
  let (part, parts, s) ← key? (skipBlanks s)
  let path := part :: parts
  let opened : Section := ⟨many, path.dropLast, path.getLast (by simp [path]), []⟩
  match many, s with
  | false, ']' :: rest => (endLine? rest).map (opened, ·)
  | true, ']' :: ']' :: rest => (endLine? rest).map (opened, ·)
  | _, _ => none

/-- Reads lines, at most `limit` of them: the rest of the members of what is open, after those in
`done`, and the sections that follow. -/
def lines? : Nat → Drafts → List Char → Option (Drafts × List Section)
  | 0, _, _ => none
  | limit + 1, done, s =>
    match skipSpace? s with
    | none => none
    | some [] => some (done, [])
    | some ('[' :: rest) => do
      let (opened, rest) ← header? rest
      let (members, sections) ← lines? limit [] rest
      return (done, { opened with members } :: sections)
    | some s => do
      let (part, parts, s) ← key? s
      match s with
      | '=' :: rest =>
        let (value, rest) ← value? (rest.length + 1) (skipBlanks rest)
        lines? limit (← done.bind? part parts value) (← endLine? rest)
      | _ => none

/-- The character that may mark the start of a text in place of nothing. -/
def mark : Char := '\ufeff'

/-- The value that a text spells: a table, or the moment that the table stands for. -/
def read? (text : List Char) : Option Value :=
  let s := foldBreaks (if text.head? = some mark then text.tail else text)
  (lines? (s.length + 1) [] s).bind fun (members, sections) => ofSections? members sections

end LineStore.Toml
