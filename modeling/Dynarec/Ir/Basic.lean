import Dynarec.Cpu.Flags
import Dynarec.Cpu.SysReg
import Dynarec.Memory
import Dynarec.Shape.Basic

/-!
# Intermediate code

The three-address code that instructions are compiled to. Values are 64-bit words; an operation
with a width cuts its inputs to the width and extends its result with zeros. A function is a shape
over lists of operations, with the types of the scratch locals that it uses.
-/

namespace Dynarec.Ir

/-- Type of a scratch local; a 32-bit local holds only values below `2 ^ 32`. -/
inductive Ty where
  | i32
  | i64
  deriving DecidableEq, Repr

/-- The bits that a local of a type can hold. -/
def Ty.mask : Ty → UInt64
  | .i32 => 0xffffffff
  | .i64 => 0xffffffffffffffff

/-- A scratch local of a function, by its position among the function's locals. -/
structure Local where
  id : Nat
  deriving DecidableEq, Repr

/-- Which level's exception registers an access uses: the current one's at run time, or a fixed
one's. -/
inductive Bank where
  | current
  | level (el : Nat)
  deriving DecidableEq, Repr

/-- The level of a bank when running at a level. -/
def Bank.resolve (current : Nat) : Bank → Nat
  | .current => current
  | .level el => el

/-- A location that code reads or writes. -/
inductive Place where
  | x (n : Nat)
  | sp
  | spEl (el : Nat)
  | flag (f : Cpu.Flag)
  | el
  | spsel
  | daif
  | elr (bank : Bank)
  | spsr (bank : Bank)
  | sys (slot : Fin Cpu.SysReg.slotCount)
  | scratch (l : Local)
  deriving DecidableEq, Repr

/-- A constant or the value of a place. -/
inductive Operand where
  | imm (value : UInt64)
  | place (p : Place)
  deriving DecidableEq, Repr

instance : Coe Place Operand := ⟨.place⟩

instance : Coe Local Place := ⟨.scratch⟩

/-- A binary operator. Shift amounts are taken modulo the width; division by zero gives zero, and
the least signed number divided by minus one gives itself. -/
inductive BinOp where
  | add
  | sub
  | mul
  | and
  | or
  | xor
  | shl
  | shrU
  | shrS
  | rotR
  | divU
  | divS
  deriving DecidableEq, Repr

/-- A comparison, signed or unsigned where that matters. -/
inductive CmpOp where
  | eq
  | ne
  | ltS
  | ltU
  | leS
  | leU
  | gtS
  | gtU
  | geS
  | geU
  deriving DecidableEq, Repr

/-- One operation. A call runs the function in a table slot and a jump the function of a guest
address; both give the guest address that the function returned to. -/
inductive Op where
  | mov (width : Width) (dst : Place) (src : Operand)
  | bin (op : BinOp) (width : Width) (dst : Place) (lhs rhs : Operand)
  | cmp (op : CmpOp) (width : Width) (dst : Place) (lhs rhs : Operand)
  | select (dst : Place) (cond ifTrue ifFalse : Operand)
  | extend (bits : Nat) (signed : Bool) (dst : Place) (src : Operand)
  | load (size : AccessSize) (dst : Place) (addr : Operand)
  | store (size : AccessSize) (addr value : Operand)
  | call (dst : Place) (slot : Nat)
  | jump (dst : Place) (target : Operand)
  | branch (cond : Operand) (ifTrue ifFalse : List Op)
  | ret (value : Operand)

/-- A compiled guest function: its entry address, the types of its locals and its body. -/
structure Function where
  entry : UInt64
  locals : Array Ty
  body : Shape (List Op) Operand

end Dynarec.Ir
