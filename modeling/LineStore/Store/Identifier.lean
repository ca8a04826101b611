import LineStore.Text.Cut

/-!
# Names that may become files

Document names and settings keys come from clients, and each becomes one visible entry directly
under a root. The two alphabets differ. The rule on dots is shared: none at the front, none at the
end and no two in a row, which rules out `.`, `..`, hidden names, and every way of making one of
these by putting two names together with a dot.
-/

namespace LineStore.Identifier

/-- Whether two dots stand side by side. -/
def hasTwoDots : List Char → Bool
  | '.' :: '.' :: _ => true
  | _ :: rest => hasTwoDots rest
  | [] => false

/-- Whether the dots of a text keep it from being part of a file name. -/
def hasDotHazard (s : List Char) : Bool :=
  s.head? == some '.' || s.getLast? == some '.' || hasTwoDots s

/-- The longest document name, in characters. -/
def lengthLimit : Nat := 64

/-- The characters that a document name may not hold. -/
def forbidden : List Char := ['/', '\\', ':', '<', '>', '"', '|', '?', '*']

/-- Whether a text is the name of a document. -/
def isDocumentName (name : String) : Bool :=
  let s := name.toList
  !s.isEmpty && s.length ≤ lengthLimit && !hasDotHazard s && !s.any forbidden.contains

/-- Whether a key may hold a character. -/
def isKeyChar (c : Char) : Bool := c.isAlphanum || c = '.' || c = '_' || c = '-'

/-- Whether a text is the key or the level of a setting. -/
def isKey (key : String) : Bool :=
  let s := key.toList
  !s.isEmpty && !hasDotHazard s && s.all isKeyChar

/-- The name with an extension, which it may have already. -/
def withExtension (name extension : String) : String :=
  if (Text.stem? extension.toList name.toList).isSome then name else name ++ extension

end LineStore.Identifier
