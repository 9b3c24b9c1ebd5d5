import Dynarec.Word.Width

/-!
# Condition flags

The flags N, Z, C and V, and the addition that sets them. The sum is formed in two steps, first of
the operands and then of the carry, and a carry or an overflow of the whole is one of exactly one
step; compiled code forms its flags by the same two steps.
-/

namespace Dynarec.Cpu

/-- One condition flag, in the order of the register image. -/
inductive Flag where
  | n
  | z
  | c
  | v
  deriving DecidableEq, Repr

/-- Position of a flag in the register image. -/
def Flag.index : Flag → Fin 4
  | .n => 0
  | .z => 1
  | .c => 2
  | .v => 3

/-- The four condition flags. -/
structure Nzcv where
  n : Bool
  z : Bool
  c : Bool
  v : Bool
  deriving DecidableEq, Repr

namespace Nzcv

/-- Read the flags from the low four bits of a number, N in bit 3. -/
def ofBits (bits : Nat) : Nzcv :=
  ⟨bits.testBit 3, bits.testBit 2, bits.testBit 1, bits.testBit 0⟩

/-- The flags as a four-bit number, N in bit 3. -/
def toBits (f : Nzcv) : Nat := f.n.toNat * 8 + f.z.toNat * 4 + f.c.toNat * 2 + f.v.toNat

/-- The value of one flag. -/
def get (f : Nzcv) : Flag → Bool
  | .n => f.n
  | .z => f.z
  | .c => f.c
  | .v => f.v

end Nzcv

/-- The sum of two words at a width, with its carry and its signed overflow. -/
def addStep (a b : UInt64) (width : Width) : UInt64 × Bool × Bool :=
  let sum := (a + b) &&& width.mask
  (sum, sum < a, (a ^^^ sum) &&& (b ^^^ sum) &&& width.signBit != 0)

/-- The sum of two words and a carry at a width, with the flags that it sets. -/
def addWithCarry (x y : UInt64) (carry : Bool) (width : Width) : UInt64 × Nzcv :=
  let x := x &&& width.mask
  let y := y &&& width.mask
  let (first, carry₁, overflow₁) := addStep x y width
  let (result, carry₂, overflow₂) := addStep first carry.toUInt64 width
  (result,
    { n := result &&& width.signBit != 0
      z := result == 0
      c := carry₁ ^^ carry₂
      v := overflow₁ ^^ overflow₂ })

/-- The difference of two words at a width, as the sum with the complement and a carry. -/
def subtract (x y : UInt64) (width : Width) : UInt64 × Nzcv := addWithCarry x (~~~y) true width

end Dynarec.Cpu
