import Dynarec.Compiler.Discover

/-!
# Compiling functions

The function of an address is compiled once and kept in the slot of the address. Invalidating an
address makes its function be compiled anew; flushing forgets everything.
-/

namespace Dynarec.Compiler

open Linking (Code Slot)

/-- The slot of an address, given one if it has none. -/
def slotFor (addr : UInt64) : EStateM Error Compiler Nat :=
  fun ⟨backend, config, slots, compilations, blocks, hits⟩ =>
    let (slot, slots) := slots.functionSlot addr
    .ok slot ⟨backend, config, slots, compilations, blocks, hits⟩

/-- Put compiled code into a slot. -/
def install (slot : Nat) (entry : UInt64) (code : Code) (c : Compiler) : Compiler :=
  { c with
    slots := { c.slots with table := c.slots.table.set slot (.compiled entry code) }
    compilations := c.compilations + 1 }

/-- The code of the function at an address, compiled unless it has been. The address has its slot
also when it cannot be compiled. -/
def compile (entry : UInt64) (mem : Memory) : EStateM Error Compiler Code := do
  let slot ← slotFor entry
  match (← get).slots.table.get? slot with
  | some (.compiled _ code) =>
    modify fun c => { c with cacheHits := c.cacheHits + 1 }
    return code
  | _ =>
    let f ← build entry mem
    match (← get).backend.prepare f with
    | .ok code =>
      modify (install slot entry code)
      return code
    | .error e => throw e

/-- Make the function of an address be compiled on its next call; tells whether it had a slot. -/
def invalidate (addr : UInt64) (c : Compiler) : Bool × Compiler :=
  let (had, slots) := c.slots.invalidate addr
  (had, { c with slots })

/-- Forget every function and free every slot. -/
def flush (c : Compiler) : Compiler := { c with slots := c.slots.flush }

/-- The slot of an address, if it has one. -/
def lookup (c : Compiler) (addr : UInt64) : Option Nat := c.slots.ofAddr[addr]?

/-- The slot of a number. -/
def slot? (c : Compiler) (slot : Nat) : Option (Slot Code) := c.slots.table.get? slot

end Dynarec.Compiler
