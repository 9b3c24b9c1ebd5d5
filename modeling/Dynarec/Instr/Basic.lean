import Dynarec.Cpu.Cond
import Dynarec.Instr.Operand
import Dynarec.Memory

/-!
# Instructions

The instructions of the guest machine, with their operands read out of the encoding: widths and
choices as types of their own, displacements as signed words, registers as numbers of which 31 is
the zero register or the stack pointer. Only allocated encodings denote an instruction.
-/

namespace Dynarec

namespace Instr

/-- Which exception an instruction takes. -/
inductive ExceptionKind where
  | svc
  | hvc
  | smc
  | brk
  | hlt
  deriving DecidableEq, Repr

/-- An instruction that orders accesses or clears the exclusive monitor. -/
inductive Barrier where
  | clrex
  | dsb
  | dmb
  | isb
  deriving DecidableEq, Repr

/-- A processor field that an immediate is written to. -/
inductive PstateField where
  | spsel
  | daifSet
  | daifClr
  deriving DecidableEq, Repr

/-- What a memory instruction does at its address. -/
inductive Transfer where
  | store
  | load (width : Width) (signed : Bool)
  | prefetch
  deriving DecidableEq, Repr

/-- A bitwise operation; `ands` also sets the flags. -/
inductive LogicOp where
  | and
  | orr
  | eor
  | ands
  deriving DecidableEq, Repr

/-- A logical immediate: its value and the three numbers that encode it. -/
structure LogicalImmediate where
  n : Nat
  immr : Nat
  imms : Nat
  value : UInt64
  deriving DecidableEq, Repr

/-- How a 16-bit immediate is moved: inverted, alone, or into the other bits of the register. -/
inductive MoveWideOp where
  | movn
  | movz
  | movk
  deriving DecidableEq, Repr

/-- A bitfield move: signed, into the other bits of the register, or unsigned. -/
inductive BitfieldOp where
  | sbfm
  | bfm
  | ubfm
  deriving DecidableEq, Repr

/-- The second operand of a conditional compare. -/
inductive CompareOperand where
  | imm (n : Nat)
  | reg (n : Nat)
  deriving DecidableEq, Repr

/-- An operation on two registers. -/
inductive TwoSourceOp where
  | udiv
  | sdiv
  | lsl
  | lsr
  | asr
  | ror
  deriving DecidableEq, Repr

/-- What a multiply-add multiplies: whole operands of its width, or the low words of registers
extended with their sign or with zeros. -/
inductive Product where
  | plain
  | long (signed : Bool)
  deriving DecidableEq, Repr

end Instr

open Instr in
/-- An instruction of the guest machine. -/
inductive Instr where
  | branchCond (consistent : Bool) (cond : Cpu.Cond) (offset : UInt64)
  | compareBranch (width : Width) (nonzero : Bool) (rt : Nat) (offset : UInt64)
  | testBranch (nonzero : Bool) (bit rt : Nat) (offset : UInt64)
  | branch (link : Bool) (offset : UInt64)
  | branchReg (link : Bool) (rn : Nat)
  | ret (rn : Nat)
  | exceptionReturn
  | exception (kind : ExceptionKind) (imm : Nat)
  | hint (number : Nat)
  | barrier (kind : Barrier) (option : Nat)
  | writePstate (field : PstateField) (imm : Nat)
  | sys (op1 crn crm op2 rt : Nat)
  | writeSysReg (selector rt : Nat)
  | readSysReg (selector rt : Nat)
  | literal (transfer : Transfer) (size : AccessSize) (rt : Nat) (offset : UInt64)
  | access (transfer : Transfer) (size : AccessSize) (unscaled : Bool) (mode : AddrMode)
      (offset : UInt64) (rn rt : Nat)
  | accessIndexed (transfer : Transfer) (size : AccessSize) (option : Nat) (scaled : Bool)
      (rm rn rt : Nat)
  | pair (load nonTemporal : Bool) (size : AccessSize) (signed : Bool) (mode : AddrMode)
      (offset : UInt64) (rt2 rn rt : Nat)
  | address (page : Bool) (offset : UInt64) (rd : Nat)
  | addSubImm (width : Width) (sub setFlags shifted : Bool) (imm rn rd : Nat)
  | logicalImm (width : Width) (op : LogicOp) (imm : LogicalImmediate) (rn rd : Nat)
  | moveWide (width : Width) (op : MoveWideOp) (shift imm rd : Nat)
  | bitfield (width : Width) (op : BitfieldOp) (immr imms : Nat) (wmask tmask : UInt64)
      (rn rd : Nat)
  | extract (width : Width) (lsb rm rn rd : Nat)
  | logicalReg (width : Width) (op : LogicOp) (inverted : Bool) (shift amount rm rn rd : Nat)
  | addSubShifted (width : Width) (sub setFlags : Bool) (shift amount rm rn rd : Nat)
  | addSubExtended (width : Width) (sub setFlags : Bool) (option amount rm rn rd : Nat)
  | addSubCarry (width : Width) (sub setFlags : Bool) (rm rn rd : Nat)
  | condCompare (width : Width) (sub : Bool) (second : CompareOperand) (cond : Cpu.Cond)
      (nzcv rn : Nat)
  | condSelect (width : Width) (invert increment : Bool) (cond : Cpu.Cond) (rm rn rd : Nat)
  | twoSource (width : Width) (op : TwoSourceOp) (rm rn rd : Nat)
  | threeSource (width : Width) (product : Product) (sub : Bool) (rm ra rn rd : Nat)
  deriving DecidableEq, Repr

end Dynarec
