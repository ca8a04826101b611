import LineStore.Store.Dictionaries
import LineStore.Store.Settings
import LineStore.Text.Blank
import LineStore.Text.Cut
import LineStore.Text.Numeral

/-!
# Commands

A request starts with one line: a verb, in any case, and after the first space what the verb takes.
The verbs cut that up in their own ways. Keys, levels and clients are words and lie between blanks
of any kind; names and sources are whatever is left of the line, blanks and all.

`parse` reads every line as a command. A line that is none of the others is `unknown`, one with a
verb but without what it needs is `malformed`. `render?` is the line that a well-formed command is
asked for with.
-/

namespace LineStore

/-- What a malformed request is told. -/
inductive Usage
  | getSettings
  | putSettings
  | putSettingsLength
  | documentName
  | put
  deriving DecidableEq, Repr

namespace Usage

def text : Usage → String
  | getSettings => "usage: GETSET <key> [level]"
  | putSettings => "usage: PUTSET <key> <level> <client_id> <length>"
  | putSettingsLength => "PUTSET length must be a number"
  | documentName => "a document name is required"
  | put => "usage: PUT <overwrite> <length> <name>"

end Usage

/-- A request, its body apart. -/
inductive Command
  | getSettings (key level : String)
  | putSettings (key level client : String) (length : Nat)
  | data (type source : String)
  /-- What is searched for is taken and not used. -/
  | list (search : Option String)
  | get (name : String)
  | put (name : String) (overwrite : Bool) (length : Nat)
  | delete (name : String)
  | subscribe
  | ready
  | quit
  | malformed (usage : Usage)
  | unknown
  deriving DecidableEq, Repr

/-- The words that a request can start with. -/
inductive Verb
  | getset
  | putset
  | data
  | list
  | get
  | del
  | put
  | subscribe
  | ready
  | quit
  deriving DecidableEq, Repr

namespace Verb

/-- The word, in capitals. -/
def word : Verb → List Char
  | getset => ['G', 'E', 'T', 'S', 'E', 'T']
  | putset => ['P', 'U', 'T', 'S', 'E', 'T']
  | data => ['D', 'A', 'T', 'A']
  | list => ['L', 'I', 'S', 'T']
  | get => ['G', 'E', 'T']
  | del => ['D', 'E', 'L']
  | put => ['P', 'U', 'T']
  | subscribe => ['S', 'U', 'B', 'S', 'C', 'R', 'I', 'B', 'E']
  | ready => ['R', 'E', 'A', 'D', 'Y']
  | quit => ['Q', 'U', 'I', 'T']

def all : List Verb := [getset, putset, data, list, get, del, put, subscribe, ready, quit]

/-- The verb that a word is, in any case of its ASCII letters. -/
def ofWord? (w : List Char) : Option Verb := all.find? (·.word = Text.capitals w)

theorem mem_all (v : Verb) : v ∈ all := by cases v <;> decide

theorem ofWord?_word (v : Verb) : ofWord? v.word = some v := by cases v <;> decide

end Verb

namespace Command

/-- The bound of the lengths that can be asked for. -/
def lengthLimit : Nat := UInt64.size

/-- The number of bytes that follow the line. -/
def bodyLength? : Command → Option Nat
  | putSettings _ _ _ length => some length
  | put _ _ length => some length
  | _ => none

/-! ## Reading a line -/

def parseGetSettings (arg : List Char) : Command :=
  match Text.words arg with
  | [key] => .getSettings (String.ofList key) Settings.defaultLevel
  | [key, level] => .getSettings (String.ofList key) (String.ofList level)
  | _ => .malformed .getSettings

def parsePutSettings (arg : List Char) : Command :=
  match Text.words arg with
  | [key, level, client, length] =>
    match Numeral.read? lengthLimit length with
    | some length =>
      .putSettings (String.ofList key) (String.ofList level) (String.ofList client) length
    | none => .malformed .putSettingsLength
  | _ => .malformed .putSettings

def parseData (arg : List Char) : Command :=
  let (type, source) := Text.cut ' ' arg
  .data (if type = [] then Dictionaries.fileType else String.ofList type) (String.ofList source)

def parsePut (arg : List Char) : Command :=
  match Text.cut? ' ' arg with
  | none => .malformed .put
  | some (overwrite, rest) =>
    match Text.cut? ' ' rest with
    | none => .malformed .put
    | some (length, name) =>
      match Numeral.read? lengthLimit length with
      | none => .malformed .put
      | some length =>
        if name = [] then .malformed .put
        else .put (String.ofList name) (Text.capitals overwrite = ['T', 'R', 'U', 'E']) length

/-- A command that takes a document name. -/
def parseNamed (command : String → Command) (arg : List Char) : Command :=
  if arg = [] then .malformed .documentName else command (String.ofList arg)

/-- The command of a line, with or without its line break. -/
def parse (raw : List Char) : Command :=
  let (word, arg) := Text.cut ' ' (Text.dropLineEnd raw)
  match Verb.ofWord? word with
  | some .getset => parseGetSettings arg
  | some .putset => parsePutSettings arg
  | some .data => parseData arg
  | some .list => .list (if arg = [] then none else some (String.ofList arg))
  | some .get => parseNamed .get arg
  | some .del => parseNamed .delete arg
  | some .put => parsePut arg
  | some .subscribe => .subscribe
  | some .ready => .ready
  | some .quit => .quit
  | none => .unknown

/-! ## Writing a line -/

/-- A verb and what it takes, with spaces between. -/
def phrase (v : Verb) (args : List (List Char)) : List Char :=
  v.word ++ args.flatMap (' ' :: ·)

/-- The line of a command, without a line break. Nothing is written for a line that was not
understood. -/
def render? : Command → Option (List Char)
  | getSettings key level => some (phrase .getset [key.toList, level.toList])
  | putSettings key level client length =>
    some (phrase .putset [key.toList, level.toList, client.toList, Numeral.write length])
  | data type source => some (phrase .data [type.toList, source.toList])
  | list none => some (phrase .list [])
  | list (some search) => some (phrase .list [search.toList])
  | get name => some (phrase .get [name.toList])
  | put name overwrite length =>
    some (phrase .put [if overwrite then ['t', 'r', 'u', 'e'] else ['f', 'a', 'l', 's', 'e'],
      Numeral.write length, name.toList])
  | delete name => some (phrase .del [name.toList])
  | subscribe => some (phrase .subscribe [])
  | ready => some (phrase .ready [])
  | quit => some (phrase .quit [])
  | malformed _ => none
  | unknown => none

end Command
end LineStore
