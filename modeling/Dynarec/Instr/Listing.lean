import Dynarec.Instr.Forms
import Dynarec.Instr.Text

/-!
# Listings

The text of any word: that of the instruction it encodes, or a word of data when it encodes none.
A listing has a line for each word, with its address, its digits and its text.
-/

namespace Dynarec.Instr

/-- The text of a word. -/
def disassemble (word : UInt32) : String :=
  match decode word with
  | .ok (form, fields) =>
    match form.read fields with
    | .ok i => i.text
    | .error _ => Operand.data word
  | .error _ => Operand.data word

/-- One line of a listing. -/
def listingLine (addr : UInt64) (word : UInt32) : String :=
  Text.hexPadded 8 addr.toNat ++ ": " ++ String.ofList (Text.paddedDigits 8 word.toNat) ++ "  " ++
    disassemble word ++ "\n"

/-- The listing of the words from an address on. -/
def listing (base : UInt64) (words : List UInt32) : String :=
  String.join (words.zipIdx.map fun (word, i) => listingLine (base + UInt64.ofNat (4 * i)) word)

end Dynarec.Instr
