import Dynarec.Compiler.Block
import Dynarec.Cpu.Cond

/-!
# Operands and flags in intermediate code

The pieces that instructions are compiled from: register operands, of which 31 is zero or the stack
pointer, shifted and extended operands, the addition that sets the flags, and the test of a
condition. The addition forms its flags by the same two steps as the processor's own, so both
agree bit for bit.
-/

namespace Dynarec.Compiler

open Ir (Op BinOp CmpOp Place Operand Local Ty)

/-- The value of a register; 31 is zero. -/
def gpr (n : Nat) : Operand := if n = 31 then .imm 0 else .place (.x n)

/-- The place of a register; 31 is the stack pointer. -/
def placeOrSp (n : Nat) : Place := if n = 31 then .sp else .x n

/-- The value of a register; 31 is the stack pointer. -/
def gprOrSp (n : Nat) : Operand := .place (placeOrSp n)

/-- The place of a destination register; 31 discards what is written. -/
def dest (n : Nat) : Option Place := if n = 31 then none else some (.x n)

/-- Write a place, if there is one, with a value cut to a width. -/
def move (dst : Option Place) (src : Operand) (width : Width) : EmitM Unit :=
  match dst with
  | some dst => emit (.mov width dst src)
  | none => pure ()

/-- Write a place with the value of a binary operator. -/
def bin (dst : Place) (op : BinOp) (width : Width) (lhs rhs : Operand) : EmitM Unit :=
  emit (.bin op width dst lhs rhs)

/-- Write a place with the value of a comparison. -/
def cmp (dst : Place) (op : CmpOp) (width : Width) (lhs rhs : Operand) : EmitM Unit :=
  emit (.cmp op width dst lhs rhs)

/-- A small constant. -/
def const (n : Nat) : Operand := .imm (UInt64.ofNat n)

/-- A new 64-bit local with a value. -/
def copy (src : Operand) : EmitM Local := do
  let l ← alloc .i64
  emit (.mov .w64 l src)
  return l

/-- Set N and Z for a result. -/
def setNz (width : Width) (result : Operand) : EmitM Unit := do
  bin (.flag .n) .shrU width result (const (width.bits - 1))
  cmp (.flag .z) .eq width result (.imm 0)

/-- Set the flags for a bitwise result: C and V are cleared. -/
def setLogicalFlags (width : Width) (result : Operand) : EmitM Unit := do
  setNz width result
  move (some (.flag .c)) (.imm 0) .w64
  move (some (.flag .v)) (.imm 0) .w64

/-- The complement of a value, in a new local. -/
def complement (width : Width) (value : Operand) : EmitM Local := do
  let l ← alloc .i64
  bin l .xor width value (.imm 0xffffffffffffffff)
  return l

/-- The sum of two values and a carry, in a new local. -/
def addCarry (width : Width) (x y carry : Operand) : EmitM Local := do
  let first ← alloc .i64
  let result ← alloc .i64
  bin first .add width x y
  bin result .add width (.place first) carry
  release first
  return result

/-- The sum of two values and a carry, in a new local, with the flags set: carry and overflow of
the whole are those of exactly one of the two steps. -/
def addCarryFlags (width : Width) (x y carry : Operand) : EmitM Local := do
  let sign := const (width.bits - 1)
  let first ← alloc .i64
  let result ← alloc .i64
  bin first .add width x y
  bin result .add width (.place first) carry
  let c ← alloc .i32
  let v ← alloc .i32
  let a ← alloc .i64
  let b ← alloc .i64
  cmp c .ltU width (.place first) x
  bin a .xor width x (.place first)
  bin b .xor width y (.place first)
  bin a .and width (.place a) (.place b)
  bin v .shrU width (.place a) sign
  cmp a .ltU width (.place result) (.place first)
  bin (.flag .c) .xor .w64 (.place c) (.place a)
  bin a .xor width (.place first) (.place result)
  bin b .xor width carry (.place result)
  bin a .and width (.place a) (.place b)
  bin a .shrU width (.place a) sign
  bin (.flag .v) .xor .w64 (.place v) (.place a)
  setNz width (.place result)
  releaseAll [first, c, v, a, b]
  return result

/-- Write 1 to a local when a condition, taken without the bit that inverts it, holds of the flags,
and 0 otherwise. -/
def testFlags (out : Local) : Cpu.Cond → EmitM Unit
  | .eq | .ne => move (some out) (.place (.flag .z)) .w64
  | .cs | .cc => move (some out) (.place (.flag .c)) .w64
  | .mi | .pl => move (some out) (.place (.flag .n)) .w64
  | .vs | .vc => move (some out) (.place (.flag .v)) .w64
  | .hi | .ls => do
    bin out .xor .w64 (.place (.flag .z)) (.imm 1)
    bin out .and .w64 (.place out) (.place (.flag .c))
  | .ge | .lt => cmp out .eq .w64 (.place (.flag .n)) (.place (.flag .v))
  | .gt | .le => do
    let t ← alloc .i32
    cmp out .eq .w64 (.place (.flag .n)) (.place (.flag .v))
    bin t .xor .w64 (.place (.flag .z)) (.imm 1)
    bin out .and .w64 (.place out) (.place t)
    release t
  | .al | .nv => move (some out) (.imm 1) .w64

/-- A new 32-bit local that is 1 when a condition holds of the flags and 0 otherwise. -/
def condHolds (cond : Cpu.Cond) : EmitM Local := do
  let out ← alloc .i32
  testFlags out cond
  if cond.bits % 2 = 1 ∧ ¬ cond.isAlways then bin out .xor .w64 (.place out) (.imm 1)
  return out

/-- The operator of a shift. -/
def shiftOp (shift : Nat) : BinOp :=
  match shift % 4 with
  | 0 => .shl
  | 1 => .shrU
  | 2 => .shrS
  | _ => .rotR

/-- A shifted register: the register itself when it is shifted by zero, else a new local. -/
def shifted (width : Width) (rm shift amount : Nat) : EmitM (Operand × List Local) := do
  if amount = 0 then return (gpr rm, [])
  else
    let l ← alloc .i64
    bin l (shiftOp shift) width (gpr rm) (const amount)
    return (.place l, [l])

/-- An extended value, shifted left by an amount, in a new local. -/
def extended (src : Operand) (option amount : Nat) : EmitM Local := do
  let l ← alloc .i64
  emit (.extend (8 <<< (option % 4)) (4 ≤ option % 8) l src)
  if amount ≠ 0 then bin l .shl .w64 (.place l) (const amount)
  return l

/-- Leave the function with a value unless it is the expected one. After a call, a callee that did
not come back to the next instruction makes its caller return as well. -/
def returnUnless (value : Local) (expected : UInt64) : EmitM Unit := do
  let differs ← alloc .i32
  cmp differs .ne .w64 (.place value) (.imm expected)
  emit (.branch (.place differs) [.ret (.place value)] [])
  release differs

end Dynarec.Compiler
