import LineStore.Config.Setting

/-!
# Layers

The names under which a source says something may be paths, such as `a.b` or `a[0]`: they say
something of a part of what is called `a`. A layer holds the settings by their first name. What a
later setting says takes the place of what was there, except that a table is merged into it; and
what a path leads through is made into what the path takes it for.

Layers lie on one another: what the upper one says counts, and what it does not say shines through.
-/

namespace LineStore.Config

/-! ## Paths -/

/-- A part of a setting. -/
inductive Step
  /-- A member of a table, after a point. -/
  | member (name : String)
  /-- An item of a list, between brackets. Below zero it counts from the end. -/
  | item (index : Int)
  deriving DecidableEq, Repr

/-- Whether a character may stand in a name on a path. -/
def isNameChar (c : Char) : Bool := c.isAlphanum || c = ' ' || c = '_' || c = '-'

/-- Whether a character may stand beside the number between brackets. -/
def isIndexBlank (c : Char) : Bool := c = ' ' || c = '\t'

/-- The whole number between brackets, after the opening one, and what follows. -/
def readIndex? (s : List Char) : Option (Int × List Char) :=
  let s := s.dropWhile isIndexBlank
  let (negative, s) := match s with
    | '-' :: rest => (true, rest)
    | _ => (false, s)
  match (s.dropWhile Char.isDigit).dropWhile isIndexBlank with
  | ']' :: rest => do
    let n ← Numeral.digits? (s.takeWhile Char.isDigit)
    if negative then if n ≤ integerBound then some (-(n : Int), rest) else none
    else if n < integerBound then some ((n : Int), rest)
    else none
  | _ => none

/-- The steps of a path after its first name, at most `limit` of them. -/
def steps? : Nat → List Char → Option (List Step)
  | _, [] => some []
  | 0, _ => none
  | limit + 1, c :: rest =>
    if c = '.' then
      let name := rest.takeWhile isNameChar
      if name = [] then none
      else
        (steps? limit (rest.dropWhile isNameChar)).map (.member (String.ofList name) :: ·)
    else if c = '[' then
      (readIndex? rest).bind fun (index, rest) => (steps? limit rest).map (.item index :: ·)
    else none

/-- The first name of a path, and its steps. What is no path is a name. -/
def splitPath (path : String) : String × List Step :=
  let s := path.toList
  let first := s.takeWhile isNameChar
  if first = [] then (path, [])
  else
    match steps? s.length (s.dropWhile isNameChar) with
    | some steps => (String.ofList first, steps)
    | none => (path, [])

/-! ## Putting -/

/-- The list with something else under a name or a number, in its place or at the end. -/
def replaceAt {α β : Type} [DecidableEq α] (key : α) (b : β) : List (α × β) → List (α × β)
  | [] => [(key, b)]
  | (k, c) :: rest => if k = key then (k, b) :: rest else (k, c) :: replaceAt key b rest

namespace Setting

/-- The members of a table; of anything else, none. -/
def members : Setting → List (String × Setting)
  | table members => members
  | _ => []

mutual

/-- What is in a place after a setting is put there. A table without members adds nothing. -/
def merge (there : Option Setting) : Setting → Setting
  | table [] => there.getD (table [])
  | table (member :: rest) =>
    table (mergeMembers ((there.map members).getD []) (member :: rest))
  | scalar origin s => scalar origin s
  | list origin length items => list origin length items

/-- The members of a table after those of another are put into it. -/
def mergeMembers (there : List (String × Setting)) :
    List (String × Setting) → List (String × Setting)
  | [] => there
  | (name, setting) :: rest =>
    mergeMembers (replaceAt name (merge (there.lookup name) setting) there) rest

end

/-- The number of items that no list reaches. -/
def listBound : Nat := 0x100000000

/-- The place of an item in a list of some length, which may lie behind the end. -/
def place? (length : Nat) (index : Int) : Option Nat :=
  if 0 ≤ index then if index < listBound then some index.toNat else none
  else if index.natAbs ≤ length then some (length - index.natAbs)
  else none

/-- What is in a place after a setting is put into the part of it that some steps lead to; nothing
if they lead to an item that no list has. -/
def putAt? (setting : Setting) : List Step → Option Setting → Option Setting
  | [], there => some (merge there setting)
  | .member name :: steps, there =>
    let members := (there.map members).getD []
    (putAt? setting steps (members.lookup name)).map fun inner =>
      table (replaceAt name inner members)
  | .item index :: steps, there =>
    let (origin, length, items) := match there with
      | some (list origin length items) => (origin, length, items)
      | _ => (none, 0, [])
    (place? length index).bind fun k =>
      -- An item is replaced and not merged into.
      let there := if steps = [] then none else items.lookup k
      (putAt? setting steps there).map fun inner =>
        list origin (max length (k + 1)) (replaceAt k inner items)

end Setting

/-! ## Layers -/

/-- Settings by their names. -/
abbrev Layer := List (String × Setting)

namespace Layer

/-- The layer with a setting put under a name, or into a part of what is there. -/
def put? (layer : Layer) (name : String) (steps : List Step) (setting : Setting) : Option Layer :=
  (setting.putAt? steps (layer.lookup name)).map fun s => replaceAt name s layer

/-- The layer of what a source says, each under its path; on top of another. -/
def ofSource? (layer : Layer) (said : List (String × Setting)) : Option Layer :=
  said.foldlM (fun layer (path, setting) =>
    let (name, steps) := splitPath path
    layer.put? name steps setting) layer

/-- The upper layer on the lower one. -/
def atop (upper lower : Layer) : Layer := Setting.mergeMembers lower upper

end Layer
end LineStore.Config
