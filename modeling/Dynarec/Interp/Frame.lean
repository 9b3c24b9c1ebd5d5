import Dynarec.Cpu.State
import Dynarec.Ir.Eval

/-!
# Places at run time

A machine is a processor with its memory and the part of the host that serves its code. A frame
adds the scratch locals of the function that runs, each of which keeps only the bits of its type.
This module reads and writes places in them.
-/

namespace Dynarec

/-- A processor, its memory, and what its host keeps. -/
structure Machine (H : Type) where
  cpu : Cpu.State
  mem : Memory
  host : H

namespace Cpu.State

open Ir (Place)

/-- The value of a place outside the scratch locals. -/
def readPlace (s : State) : Place → UInt64
  | .x n => s.readX n .w64
  | .sp => s.readSp
  | .spEl el => s.readSpEl el
  | .flag f => (s.readFlag f).toUInt64
  | .el => UInt64.ofNat s.readEl
  | .spsel => s.readSpsel.toUInt64
  | .daif => s.daif
  | .elr bank => s.readElr (bank.resolve s.readEl)
  | .spsr bank => s.readSpsr (bank.resolve s.readEl)
  | .sys slot => s.readSlot slot
  | .scratch _ => 0

/-- Write a place outside the scratch locals. -/
def writePlace (s : State) (place : Place) (value : UInt64) : State :=
  match place with
  | .x n => s.writeX n .w64 value
  | .sp => s.writeSp value
  | .spEl el => s.writeSpEl el value
  | .flag f => s.writeFlag f (value != 0)
  | .el => s.writeEl value
  | .spsel => s.writeSpsel (value &&& 1 == 1)
  | .daif => s.writeDaif value
  | .elr bank =>
    let el := bank.resolve s.readEl
    s.writeElr el value
  | .spsr bank =>
    let el := bank.resolve s.readEl
    s.writeSpsr el value
  | .sys slot => s.writeSlot slot value
  | .scratch _ => s

end Cpu.State

namespace Interp

open Ir (Place Operand Ty)

/-- A machine with the scratch locals of the running function. -/
structure Frame (H : Type) where
  machine : Machine H
  locals : Array UInt64

namespace Frame

variable {H : Type}

/-- The value of a place. -/
def readPlace (f : Frame H) : Place → UInt64
  | .scratch l => f.locals.getD l.id 0
  | place => f.machine.cpu.readPlace place

/-- The value of an operand. -/
def read (f : Frame H) : Operand → UInt64
  | .imm value => value
  | .place place => f.readPlace place

/-- Write a place; a scratch local keeps the bits of its type. -/
def write (types : Array Ty) (f : Frame H) (place : Place) (value : UInt64) : Frame H :=
  match place with
  | .scratch l =>
    { f with locals := f.locals.setIfInBounds l.id (value &&& (types.getD l.id .i64).mask) }
  | place =>
    let ⟨⟨cpu, mem, host⟩, locals⟩ := f
    ⟨⟨cpu.writePlace place value, mem, host⟩, locals⟩

end Frame

end Interp

end Dynarec
