import Dynarec.Text.Graphic
import Dynarec.Text.Hex

/-!
# Quoted text

Text that a user has given is repeated in messages between double quotes, so that its ends and the
characters that cannot be seen show: the quote and the backslash follow a backslash, three control
characters and the null character have a letter, and any other character that is not graphic is
given by its number.
-/

namespace Dynarec.Text

/-- The characters that stand for one character in quoted text. -/
def escape (c : Char) : List Char :=
  match c with
  | '"' => ['\\', '"']
  | '\\' => ['\\', '\\']
  | '\n' => ['\\', 'n']
  | '\r' => ['\\', 'r']
  | '\t' => ['\\', 't']
  | '\x00' => ['\\', '0']
  | _ => if isGraphic c then [c] else ['\\', 'u', '\x7b'] ++ hexDigits c.toNat ++ ['\x7d']

/-- A text between quotes. -/
def quoted (text : String) : String :=
  String.ofList (['"'] ++ text.toList.flatMap escape ++ ['"'])

end Dynarec.Text
