import Std.Data.HashMap
import Dynarec.Linking.FunctionTable

/-!
# Slots of guest addresses

The function table with the slot that every known guest address has in it. Asking for the slot of
an address that has none gives it one, as a function to be compiled on its first call.
-/

namespace Dynarec.Linking

/-- A function table and the slots of guest addresses in it. -/
structure Slots (F : Type) where
  ofAddr : Std.HashMap UInt64 Nat
  table : FunctionTable F
  trampolines : Nat

namespace Slots

variable {F : Type}

/-- No address has a slot. -/
def ofSize (size : Nat) : Slots F := ⟨∅, .ofSize size, 0⟩

/-- The slot of an address, given one if it has none. -/
def functionSlot (s : Slots F) (addr : UInt64) : Nat × Slots F :=
  match s.ofAddr[addr]? with
  | some slot => (slot, s)
  | none =>
    let (slot, table) := s.table.alloc
    (slot, ⟨s.ofAddr.insert addr slot, table.set slot (.trampoline addr), s.trampolines + 1⟩)

/-- Make the function of an address be compiled on its next call; tells whether it had a slot. -/
def invalidate (s : Slots F) (addr : UInt64) : Bool × Slots F :=
  match s.ofAddr[addr]? with
  | some slot => (true, { s with table := s.table.set slot (.trampoline addr) })
  | none => (false, s)

/-- Forget every address and free every slot. -/
def flush (s : Slots F) : Slots F := { s with ofAddr := ∅, table := s.table.reset }

end Slots

end Dynarec.Linking
