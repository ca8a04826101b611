import LineStore.Toml.Draft

/-!
# Tables from sections

A TOML document is a list of sections, each with a header that says where its names belong, after
names that stand before the first header. The tables are put together from the sections in order. A
table that a longer header implied may be given a section of its own once; an array of tables grows
by one with every section. Nothing is ever bound twice: what would bind a name again is refused, and
so is a header that leads into something complete.

A table that stands for a moment is complete at once. If that is the whole document, its sections
are passed over.
-/

namespace LineStore.Toml

/-- The names under one header. -/
structure Section where
  /-- Whether the header adds to an array of tables. -/
  many : Bool
  /-- The parts of the header before the last. -/
  above : List String
  /-- The last part of the header. -/
  name : String
  members : Drafts

/-- What a name in a table is bound to while more sections follow. -/
inductive Item
  /-- Something complete. -/
  | value (value : Value)
  /-- A table that headers made; `headed` if it has a section of its own. -/
  | table (headed : Bool) (members : List (String × Item))
  /-- An array of tables, the last one first. -/
  | tables (elements : List Item)

/-- The names of a table, in the order in which they were bound. -/
abbrev Table := List (String × Item)

namespace Table

/-- The table with a name bound that is free. A table that stands for a moment has no tables. -/
def bind? (t : Table) (name : String) (item : Item) : Option Table :=
  if t = [] ∧ name = Moment.name then none else some (t ++ [(name, item)])

/-- What a table becomes that gets the names of a section. -/
def fill? (t : Table) (members : Drafts) : Option Item :=
  match t, members with
  | [], members =>
    (Draft.table false members).value?.map fun
      | .table values => .table true (values.map fun (name, value) => (name, .value value))
      | value => .value value
  | t, members =>
    if (t.map (·.1) ++ members.map (·.1)).Nodup then
      (Drafts.members? members).map fun values =>
        .table true (t ++ values.map fun (name, value) => (name, .value value))
    else none

/-- The table with the names of a section under a name of its own. -/
def settle? (many : Bool) (name : String) (members : Drafts) (t : Table) : Option Table :=
  match t.lookup name, many with
  | none, false => (fill? [] members).bind (t.bind? name ·)
  | none, true => (fill? [] members).bind fun element => t.bind? name (.tables [element])
  | some (.table false inner), false =>
    (fill? inner members).map fun item => rebind name item t
  | some (.tables elements), true =>
    (fill? [] members).map fun element => rebind name (.tables (element :: elements)) t
  | some _, _ => none

/-- The table with the one at a path of headers changed. A table that is missing on the way is
implied. -/
def change? (f : Table → Option Table) : List String → Table → Option Table
  | [], t => f t
  | part :: path, t =>
    match t.lookup part with
    | none => (change? f path []).bind fun inner => t.bind? part (.table false inner)
    | some (.table headed inner) =>
      (change? f path inner).map fun inner => rebind part (.table headed inner) t
    | some (.tables (.table headed last :: earlier)) =>
      (change? f path last).map fun last =>
        rebind part (.tables (.table headed last :: earlier)) t
    | some _ => none

/-- The table with one more section. -/
def add? (t : Table) (part : Section) : Option Table :=
  t.change? (settle? part.many part.name part.members) part.above

end Table

mutual

/-- What was bound, complete. -/
def Item.toValue : Item → Value
  | .value v => v
  | .table _ members => .table (toValues members)
  | .tables elements => .array (toElements elements).reverse

/-- The members of a table, complete. -/
def toValues : List (String × Item) → List (String × Value)
  | [] => []
  | (name, item) :: rest => (name, item.toValue) :: toValues rest

/-- The tables of an array, complete. -/
def toElements : List Item → List Value
  | [] => []
  | item :: rest => item.toValue :: toElements rest

end

/-- The value of a document: its names before the first header, and its sections. -/
def ofSections? (members : Drafts) (sections : List Section) : Option Value :=
  match Table.fill? [] members with
  | some (.table _ t) => (sections.foldlM Table.add? t).map fun t => .table (toValues t)
  | item => item.map Item.toValue

end LineStore.Toml
