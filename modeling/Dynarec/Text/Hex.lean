/-!
# Hexadecimal text

Numbers in messages and listings are written with lower-case digits after `0x`, either with no
leading zeros or padded to a fixed number of digits; byte strings are written as two digits per
byte in address order.
-/

namespace Dynarec.Text

/-- The lower-case hexadecimal digits of a number, without leading zeros; zero is one digit. -/
def hexDigits (n : Nat) : List Char := Nat.toDigits 16 n

/-- A number as `0x` and its digits. -/
def hex (n : Nat) : String := String.ofList ('0' :: 'x' :: hexDigits n)

/-- At least `count` digits of a number, filled with zeros on the left. -/
def paddedDigits (count n : Nat) : List Char :=
  let digits := hexDigits n
  List.replicate (count - digits.length) '0' ++ digits

/-- A number as `0x` and at least `count` digits. -/
def hexPadded (count n : Nat) : String := String.ofList ('0' :: 'x' :: paddedDigits count n)

/-- The lower-case digit of a number below 16. -/
def hexDigit (n : Nat) : Char := Nat.digitChar n

/-- The value of a hexadecimal digit of either case. -/
def hexValue? (c : Char) : Option Nat :=
  if '0' ≤ c ∧ c ≤ '9' then some (c.toNat - '0'.toNat)
  else if 'a' ≤ c ∧ c ≤ 'f' then some (c.toNat - 'a'.toNat + 10)
  else if 'A' ≤ c ∧ c ≤ 'F' then some (c.toNat - 'A'.toNat + 10)
  else none

/-- Two digits per byte, in order. -/
def hexBytes (bytes : ByteArray) : String :=
  bytes.foldl (fun text b =>
    (text.push (hexDigit (b.toNat / 16))).push (hexDigit (b.toNat % 16))) ""

/-- Read back pairs of digits; `none` when a digit is alone or is not a digit. -/
def bytesOfHexDigits? : List Char → Option (List UInt8)
  | [] => some []
  | [_] => none
  | a :: b :: rest => do
    let high ← hexValue? a
    let low ← hexValue? b
    return UInt8.ofNat (16 * high + low) :: (← bytesOfHexDigits? rest)

end Dynarec.Text
