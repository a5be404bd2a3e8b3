/-
Texts between double quotes.

What would end or break the quotes, and every character that does not show by
itself, is written as an escape, so that the quoted text shows all that is in
it.
-/
import LoopLanes.Text.Visible

namespace LoopLanes

namespace Text

/-- A character by its code, in hexadecimal digits between braces. -/
def codeEscape (c : Char) : List Char :=
  "\\u\x7b".toList ++ Nat.toDigits 16 c.toNat ++ ['\x7d']

/-- A character as it stands between quotes. -/
def escape (c : Char) : List Char :=
  match c with
  | '\x00' => ['\\', '0']
  | '\t' => ['\\', 't']
  | '\n' => ['\\', 'n']
  | '\r' => ['\\', 'r']
  | '"' => ['\\', '"']
  | '\\' => ['\\', '\\']
  | c => if isVisible c then [c] else codeEscape c

/-- A text between quotes. -/
def quoted (s : String) : String := "\"" ++ String.ofList (s.toList.flatMap escape) ++ "\""

end Text

end LoopLanes
