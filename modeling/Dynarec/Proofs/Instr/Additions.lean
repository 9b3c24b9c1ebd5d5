import Dynarec.Proofs.Cpu.Registers
import Dynarec.Proofs.Instr.Decoding
import Dynarec.Proofs.Ir.Addition
import Dynarec.Compiler.Arithmetic

/-!
# Additions

The reference for the instructions that add, subtract and compare: the operands that the word of such an
instruction names, taken with their own shifts and extensions, the addition with carry of the processor,
and where its result and its flags go.
-/

namespace Dynarec.Instr

open Cpu (Cond Nzcv)

/-! ### Operands -/

/-- The low bits of a word, shifted by an amount: left, right, or right with the sign. -/
def shiftedValue (w : Width) (v : UInt64) (shift amount : Nat) : UInt64 :=
  let low : BitVec w.bits := v.toBitVec.setWidth w.bits
  let result := match shift with
    | 0 => low <<< amount
    | 1 => low >>> amount
    | _ => low.sshiftRight amount
  .ofBitVec (result.setWidth 64)

/-- The low byte, half, word or double word of a word, extended with zeros or with its sign, then shifted
left. -/
def extendedValue (v : UInt64) (option amount : Nat) : UInt64 :=
  let low : BitVec (8 <<< (option % 4)) := v.toBitVec.setWidth _
  let result := if option < 4 then low.setWidth 64 else low.signExtend 64
  .ofBitVec (result <<< amount)

/-- An operand of an addition. Register 31 is zero, or the stack pointer where this is allowed. -/
inductive Summand where
  | reg (n : Nat)
  | regOrSp (n : Nat)
  | imm (value : UInt64)
  | shifted (n shift amount : Nat)
  | extended (n option amount : Nat)

/-- The value of an operand before an instruction runs. -/
def Summand.value (w : Width) (cpu : Cpu.State) : Summand → UInt64
  | .reg n => cpu.readX n w
  | .regOrSp n => cpu.readXOrSp n
  | .imm value => value
  | .shifted n shift amount => shiftedValue w (cpu.readX n w) shift amount
  | .extended n option amount => extendedValue (cpu.readX n .w64) option amount

/-! ### Results -/

/-- Where the result of an addition goes. -/
inductive Dest where
  | discarded
  | reg (n : Nat)
  | regOrSp (n : Nat)

/-- Write the result of an addition. -/
def Dest.write (w : Width) (v : UInt64) (cpu : Cpu.State) : Dest → Cpu.State
  | .discarded => cpu
  | .reg n => cpu.writeX n w v
  | .regOrSp n => cpu.writeXOrSp n w v

/-- What becomes of the flags: they stay, they are those of the addition, or they are so if a condition
holds before and are given ones otherwise. -/
inductive FlagRule where
  | keep
  | set
  | setIf (cond : Cond) (otherwise : Nzcv)

/-- Write the flags of an addition. -/
def FlagRule.write (flags : Nzcv) (cpu : Cpu.State) : FlagRule → Cpu.State
  | .keep => cpu
  | .set => cpu.writeNzcv flags
  | .setIf cond otherwise => cpu.writeNzcv (if cond.holds cpu.readNzcv then flags else otherwise)

/-! ### Additions -/

/-- An addition or, of the complement, a subtraction. A carry comes in from the flag, or else is 0 for an
addition and 1 for a subtraction. -/
structure Addition where
  width : Width
  sub : Bool
  carryFlag : Bool
  left : Summand
  right : Summand
  flags : FlagRule
  dest : Dest

namespace Addition

variable (a : Addition) (cpu : Cpu.State)

/-- The sum and its flags. -/
def sum : UInt64 × Nzcv :=
  let y := a.right.value a.width cpu
  Cpu.addWithCarry (a.left.value a.width cpu) (if a.sub then ~~~y else y)
    (if a.carryFlag then cpu.readFlag .c else a.sub) a.width

/-- The state after the addition. -/
def apply : Cpu.State :=
  a.dest.write a.width (a.sum cpu).1 (a.flags.write (a.sum cpu).2 cpu)

end Addition

/-! ### Words -/

/-- The classes of instructions that add. -/
inductive AdditionClass where
  | immediate
  | shifted
  | extended
  | carry
  | compareReg
  | compareImm
  deriving DecidableEq

namespace AdditionClass

/-- The bits that are fixed in a class, as a mask and the values of the bits. -/
def fixed : AdditionClass → UInt32 × UInt32
  | .immediate => (0x1f800000, 0x11000000)
  | .shifted => (0x1f200000, 0x0b000000)
  | .extended => (0x1fe00000, 0x0b200000)
  | .carry => (0x1fe0fc00, 0x1a000000)
  | .compareReg => (0x3fe00c10, 0x3a400000)
  | .compareImm => (0x3fe00c10, 0x3a400800)

/-- A word is of a class. -/
def Encodes (c : AdditionClass) (word : UInt32) : Prop := word &&& c.fixed.1 = c.fixed.2

instance (c : AdditionClass) (word : UInt32) : Decidable (c.Encodes word) :=
  inferInstanceAs (Decidable (_ = _))

/-- The addition that a word of a class asks for; there is none for words that are reserved. -/
def read? (c : AdditionClass) (word : UInt32) : Option Addition :=
  let width := Width.ofSizeBit (bitsAt word 31 1)
  let sub := bitsAt word 30 1 == 1
  let setFlags := bitsAt word 29 1 == 1
  let flags : FlagRule := if setFlags then .set else .keep
  let rm := bitsAt word 16 5
  let rn := bitsAt word 5 5
  let rd := bitsAt word 0 5
  -- Only an instruction that keeps the flags can write the stack pointer.
  let dest : Dest := if setFlags then .reg rd else .regOrSp rd
  let compare : FlagRule := .setIf (.ofBits (bitsAt word 12 4)) (.ofBits (bitsAt word 0 4))
  match c with
  | .immediate =>
    let imm := bitsAt word 10 12
    let value := UInt64.ofNat (if bitsAt word 22 1 == 1 then imm * 4096 else imm)
    some ⟨width, sub, false, .regOrSp rn, .imm value, flags, dest⟩
  | .shifted =>
    let shift := bitsAt word 22 2
    let amount := bitsAt word 10 6
    if shift < 3 ∧ amount < width.bits then
      some ⟨width, sub, false, .reg rn, .shifted rm shift amount, flags, .reg rd⟩
    else none
  | .extended =>
    let amount := bitsAt word 10 3
    if amount ≤ 4 then
      some ⟨width, sub, false, .regOrSp rn, .extended rm (bitsAt word 13 3) amount, flags, dest⟩
    else none
  | .carry => some ⟨width, sub, true, .reg rn, .reg rm, flags, .reg rd⟩
  | .compareReg => some ⟨width, sub, false, .reg rn, .reg rm, compare, .discarded⟩
  | .compareImm => some ⟨width, sub, false, .reg rn, .imm (UInt64.ofNat rm), compare, .discarded⟩

end AdditionClass

end Dynarec.Instr
