import Dynarec.Cpu.Flags
import Dynarec.Cpu.SysReg

/-!
# Processor state

The registers of one core. Every field is a 64-bit word; setters keep each word within what the
architecture allows, so flags are 0 or 1, the exception level is below 4, the stack selector is a
bit and `daif` has no bit outside its mask. The selected stack pointer is the one of the current
level when the selector is set and the one of level 0 otherwise.
-/

namespace Dynarec.Cpu

/-- The registers of a core. -/
structure State where
  x : Vector UInt64 31
  spEl : Vector UInt64 4
  elrEl : Vector UInt64 3
  spsrEl : Vector UInt64 3
  flags : Vector UInt64 4
  el : UInt64
  spsel : UInt64
  daif : UInt64
  sys : Vector UInt64 SysReg.slotCount
  deriving DecidableEq

/-- Bank of the exception registers of a level; level 0 shares the bank of level 1. -/
def bankIndex (el : Nat) : Fin 3 :=
  match el % 4 with
  | 2 => 1
  | 3 => 2
  | _ => 0

namespace State

/-- The state after reset: level 1 with the stack pointer of level 0, all exceptions masked. -/
def reset : State where
  x := Vector.replicate 31 0
  spEl := Vector.replicate 4 0
  elrEl := Vector.replicate 3 0
  spsrEl := Vector.replicate 3 0
  flags := Vector.replicate 4 0
  el := 1
  spsel := 0
  daif := SysReg.daifMask
  sys := Vector.replicate SysReg.slotCount 0

/-- Read a general register at a width; register 31 and above read as zero. -/
def readX (s : State) (n : Nat) (width : Width) : UInt64 :=
  if h : n < 31 then s.x[n] &&& width.mask else 0

/-- Write a general register at a width, clearing the bits above; register 31 and above ignore
the write. -/
def writeX (s : State) (n : Nat) (width : Width) (value : UInt64) : State :=
  if h : n < 31 then { s with x := s.x.set n (value &&& width.mask) } else s

/-- The stack pointer of a level among the four. -/
def spBank (el : Nat) : Fin 4 := ⟨el % 4, Nat.mod_lt _ (by decide)⟩

/-- Which stack pointer is selected. -/
def spIndex (s : State) : Fin 4 :=
  if s.spsel &&& 1 == 1 then spBank s.el.toNat else spBank 0

/-- The selected stack pointer. -/
def readSp (s : State) : UInt64 := s.spEl[s.spIndex]

/-- Write the selected stack pointer. -/
def writeSp (s : State) (value : UInt64) : State :=
  let i := s.spIndex
  { s with spEl := s.spEl.set i value }

/-- The stack pointer of a level. -/
def readSpEl (s : State) (el : Nat) : UInt64 := s.spEl[spBank el]

/-- Write the stack pointer of a level. -/
def writeSpEl (s : State) (el : Nat) (value : UInt64) : State :=
  { s with spEl := s.spEl.set (spBank el) value }

/-- The return address of exceptions taken to a level. -/
def readElr (s : State) (el : Nat) : UInt64 := s.elrEl[bankIndex el]

/-- Write the return address of exceptions taken to a level. -/
def writeElr (s : State) (el : Nat) (value : UInt64) : State :=
  { s with elrEl := s.elrEl.set (bankIndex el) value }

/-- The saved status of exceptions taken to a level. -/
def readSpsr (s : State) (el : Nat) : UInt64 := s.spsrEl[bankIndex el]

/-- Write the saved status of exceptions taken to a level. -/
def writeSpsr (s : State) (el : Nat) (value : UInt64) : State :=
  { s with spsrEl := s.spsrEl.set (bankIndex el) value }

/-- Whether a flag is set. -/
def readFlag (s : State) (f : Flag) : Bool := s.flags[f.index] != 0

/-- Set or clear a flag. -/
def writeFlag (s : State) (f : Flag) (value : Bool) : State :=
  { s with flags := s.flags.set f.index value.toUInt64 }

/-- The four flags. -/
def readNzcv (s : State) : Nzcv :=
  ⟨s.readFlag .n, s.readFlag .z, s.readFlag .c, s.readFlag .v⟩

/-- Write the four flags. -/
def writeNzcv (s : State) (f : Nzcv) : State :=
  (((s.writeFlag .n f.n).writeFlag .z f.z).writeFlag .c f.c).writeFlag .v f.v

/-- The current exception level. -/
def readEl (s : State) : Nat := s.el.toNat % 4

/-- Write the current exception level. -/
def writeEl (s : State) (value : UInt64) : State := { s with el := value &&& 3 }

/-- Whether the stack pointer of the current level is selected. -/
def readSpsel (s : State) : Bool := s.spsel &&& 1 == 1

/-- Select the stack pointer of the current level or of level 0. -/
def writeSpsel (s : State) (value : Bool) : State := { s with spsel := value.toUInt64 }

/-- Write the exception masks. -/
def writeDaif (s : State) (value : UInt64) : State := { s with daif := value &&& SysReg.daifMask }

/-- A word of system-register storage. -/
def readSlot (s : State) (slot : Fin SysReg.slotCount) : UInt64 := s.sys[slot]

/-- Write a word of system-register storage. -/
def writeSlot (s : State) (slot : Fin SysReg.slotCount) (value : UInt64) : State :=
  { s with sys := s.sys.set slot value }

/-- Read through a binding. -/
def readBinding (s : State) : SysReg.Binding → UInt64
  | .backed slot => s.readSlot slot
  | .const value => value
  | .currentEl => UInt64.ofNat (s.readEl * 4)
  | .spsel => s.spsel &&& 1
  | .nzcv => UInt64.ofNat (s.readNzcv.toBits <<< 28)
  | .daif => s.daif
  | .stackPointer el => s.readSpEl el
  | .elr el => s.readElr el
  | .spsr el => s.readSpsr el

/-- Write through a binding. -/
def writeBinding (s : State) (value : UInt64) : SysReg.Binding → State
  | .backed slot => s.writeSlot slot value
  | .const _ | .currentEl => s
  | .spsel => { s with spsel := value &&& 1 }
  | .nzcv => s.writeNzcv (Nzcv.ofBits (value >>> 28).toNat)
  | .daif => s.writeDaif value
  | .stackPointer el => s.writeSpEl el value
  | .elr el => s.writeElr el value
  | .spsr el => s.writeSpsr el value

/-- Read a system register. -/
def readSysReg (s : State) (selector : Nat) : UInt64 :=
  match (SysReg.lookup selector).bind (·.read) with
  | some binding => s.readBinding binding
  | none => 0

/-- Write a system register. -/
def writeSysReg (s : State) (selector : Nat) (value : UInt64) : State :=
  match (SysReg.lookup selector).bind (·.write) with
  | some binding => s.writeBinding value binding
  | none => s

end State

end Dynarec.Cpu
