import Dynarec.Error
import Dynarec.Ir.Scratch
import Dynarec.Linking.Code

/-!
# Blocks under construction

What instructions are compiled into: the operations so far, the way the block ends, the scratch
locals of the function and the slots of guest addresses. The slots outlive an error, since a slot
that was handed out stays.
-/

namespace Dynarec.Compiler

open Ir (Op Place Operand Local Ty)

/-- How a block ends: without successor, or by going to an address, if a condition holds where one
is given. -/
inductive Terminator where
  | stop
  | branch (target : UInt64) (cond : Option Operand)
  deriving DecidableEq, Repr

/-- A block under construction, with the address and the word of the current instruction. -/
structure Block where
  pc : UInt64
  word : UInt32
  ops : Array Op
  terminator : Option Terminator
  scratch : Ir.Scratch
  slots : Linking.Slots Linking.Code

/-- Compiling into a block. -/
abbrev EmitM := EStateM Error Block

namespace Block

/-- The block that starts at an address. -/
def start (pc : UInt64) (scratch : Ir.Scratch) (slots : Linking.Slots Linking.Code) : Block :=
  ⟨pc, 0, #[], none, scratch, slots⟩

end Block

/-- The address of the current instruction. -/
def currentPc : EmitM UInt64 := fun b => .ok b.pc b

/-- Append an operation. -/
def emit (op : Op) : EmitM Unit := fun b => .ok () { b with ops := b.ops.push op }

/-- End the block. -/
def terminate (t : Terminator) : EmitM Unit := fun b =>
  if b.terminator.isSome then .error (.invariant (.doubleTerminated b.pc)) b
  else .ok () { b with terminator := some t }

/-- End the block by going to an address, if a condition holds where one is given. -/
def goto (target : UInt64) (cond : Option Operand) : EmitM Unit := terminate (.branch target cond)

/-- End the block without successor. -/
def stop : EmitM Unit := terminate .stop

/-- A scratch local of a type. -/
def alloc (ty : Ty) : EmitM Local := fun b =>
  let (l, scratch) := b.scratch.alloc ty
  .ok l { b with scratch }

/-- Give a scratch local back. -/
def release (l : Local) : EmitM Unit := fun b =>
  match b.scratch.release l with
  | some scratch => .ok () { b with scratch }
  | none => .error (.invariant (.releaseUnallocated b.pc l.id)) b

/-- Give scratch locals back, in order. -/
def releaseAll (ls : List Local) : EmitM Unit := ls.forM release

/-- The table slot of the function at an address. -/
def functionSlot (addr : UInt64) : EmitM Nat := fun ⟨pc, word, ops, terminator, scratch, slots⟩ =>
  let (slot, slots) := slots.functionSlot addr
  .ok slot ⟨pc, word, ops, terminator, scratch, slots⟩

/-- The current instruction encodes nothing that is allocated. -/
def invalid : EmitM Unit := fun b => .error (.invalidEncoding b.pc b.word) b

/-- The current instruction is not compiled. -/
def unsupported (mnemonic : String) : EmitM Unit := fun b =>
  .error (.unsupportedInstruction b.pc b.word mnemonic) b

end Dynarec.Compiler
