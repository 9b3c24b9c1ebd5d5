import Dynarec.Text.Hex

/-!
# Unsigned numbers in text

A number is written as digits of a radix, optionally after one plus sign, and must stay below a
bound. Digits are taken from the left, so of two faults the leftmost one is reported, and at one
character a bad digit is reported before an excess.
-/

namespace Dynarec.Text

/-- Why a text is not a number. -/
inductive NumberError where
  | empty
  | invalidDigit
  | overflow
  deriving DecidableEq, Repr

/-- What is said to the user about a text that is not a number. -/
def NumberError.message : NumberError → String
  | .empty => "cannot parse integer from empty string"
  | .invalidDigit => "invalid digit found in string"
  | .overflow => "number too large to fit in target type"

/-- The value of a digit of a radix up to sixteen. -/
def digitValue? (radix : Nat) (c : Char) : Option Nat :=
  (hexValue? c).filter (· < radix)

/-- Append one digit to a number that has to stay below `bound`. -/
def appendDigit (radix bound value : Nat) (c : Char) : Except NumberError Nat :=
  match digitValue? radix c with
  | none => .error .invalidDigit
  | some digit =>
    if value * radix + digit < bound then .ok (value * radix + digit) else .error .overflow

/-- The number below `bound` that a text denotes in a radix. -/
def readNumber (radix bound : Nat) : List Char → Except NumberError Nat
  | [] => .error .empty
  | ['+'] => .error .invalidDigit
  | '+' :: digits => digits.foldlM (appendDigit radix bound) 0
  | digits => digits.foldlM (appendDigit radix bound) 0

/-- The number below `bound` that a literal denotes: hexadecimal after `0x` or `0X`, otherwise
decimal; underscores are left out. -/
def readLiteral (bound : Nat) (text : String) : Except NumberError Nat :=
  let digits := fun (s : List Char) => s.filter (· != '_')
  match text.toList with
  | '0' :: 'x' :: rest => readNumber 16 bound (digits rest)
  | '0' :: 'X' :: rest => readNumber 16 bound (digits rest)
  | rest => readNumber 10 bound (digits rest)

/-- Split a word before the run of decimal digits at its end. -/
def splitDigits (word : List Char) : List Char × List Char :=
  let digits := (word.reverse.takeWhile Char.isDigit).reverse
  (word.take (word.length - digits.length), digits)

end Dynarec.Text
