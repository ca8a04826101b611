import LineStore.Text.Hidden
import LineStore.Text.Numeral

/-!
# Text in quotes

How a message shows a piece of text that someone sent: in double quotes, on one line, with nothing
in it that a terminal would swallow. A quote, a backslash and the common controls have short
escapes; every other character that does not show is written by its number.
-/

namespace LineStore.Text

/-- A character as it stands between quotes. -/
def quoteChar (c : Char) : List Char :=
  match c with
  | '\x00' => ['\\', '0']
  | '\t' => ['\\', 't']
  | '\r' => ['\\', 'r']
  | '\n' => ['\\', 'n']
  | '\\' => ['\\', '\\']
  | '"' => ['\\', '"']
  | _ => if isHidden c then ['\\', 'u', '\x7b'] ++ Numeral.hex 1 c.toNat ++ ['\x7d'] else [c]

/-- The text in double quotes. -/
def quote (s : List Char) : List Char := '"' :: s.flatMap quoteChar ++ ['"']

example : quote ['a', '"', '\n', 'é'] = ['"', 'a', '\\', '"', '\\', 'n', 'é', '"'] := by
  decide +kernel
example : quoteChar '\u200b' = ['\\', 'u', '\x7b', '2', '0', '0', 'b', '\x7d'] := by decide +kernel

end LineStore.Text
