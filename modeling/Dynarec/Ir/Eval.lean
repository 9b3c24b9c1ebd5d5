import Dynarec.Ir.Basic
import Dynarec.Word.Bits

/-!
# Meaning of the operators

The value of every binary operator, comparison and extension on 64-bit words.
-/

namespace Dynarec.Ir

/-- The low part of a word at a width, as a signed number in a whole word. -/
def toSigned (value : UInt64) (width : Width) : Int64 :=
  (Bits.signExtend (value &&& width.mask) width.bits).toInt64

/-- The value of a binary operator at a width. -/
def BinOp.eval (op : BinOp) (width : Width) (lhs rhs : UInt64) : UInt64 :=
  let a := lhs &&& width.mask
  let b := rhs &&& width.mask
  let amount := b.toNat % width.bits
  let result := match op with
    | .add => a + b
    | .sub => a - b
    | .mul => a * b
    | .and => a &&& b
    | .or => a ||| b
    | .xor => a ^^^ b
    | .shl => a <<< UInt64.ofNat amount
    | .shrU => a >>> UInt64.ofNat amount
    | .shrS => (toSigned a width >>> (UInt64.ofNat amount).toInt64).toUInt64
    | .rotR => Bits.rotateRight a width.bits amount
    | .divU => a / b
    | .divS => (toSigned a width / toSigned b width).toUInt64
  result &&& width.mask

/-- Whether a comparison holds at a width. -/
def CmpOp.holds (op : CmpOp) (width : Width) (lhs rhs : UInt64) : Bool :=
  let a := lhs &&& width.mask
  let b := rhs &&& width.mask
  match op with
  | .eq => a == b
  | .ne => a != b
  | .ltS => toSigned a width < toSigned b width
  | .ltU => a < b
  | .leS => toSigned a width ≤ toSigned b width
  | .leU => a ≤ b
  | .gtS => toSigned b width < toSigned a width
  | .gtU => b < a
  | .geS => toSigned b width ≤ toSigned a width
  | .geU => b ≤ a

/-- The value of a comparison at a width, 1 when it holds and 0 otherwise. -/
def CmpOp.eval (op : CmpOp) (width : Width) (lhs rhs : UInt64) : UInt64 :=
  (op.holds width lhs rhs).toUInt64

/-- Extend the low `bits` bits of a word, with its sign or with zeros. -/
def extend (value : UInt64) (bits : Nat) (signed : Bool) : UInt64 :=
  if signed then Bits.signExtend (value &&& Bits.ones bits) bits else value &&& Bits.ones bits

end Dynarec.Ir
