/-!
# Function table

The table of compiled functions that calls go through. A slot is vacant, or stands for a function
that is compiled on its first call, or holds a compiled function. Free slots are handed out with
the lowest number first; when none is left the table doubles.
-/

namespace Dynarec.Linking

/-- One slot of the table, over the type of compiled functions. -/
inductive Slot (F : Type) where
  | vacant
  | trampoline (entry : UInt64)
  | compiled (entry : UInt64) (function : F)

/-- Slots, and the numbers of the free ones in the order in which they are handed out. -/
structure FunctionTable (F : Type) where
  slots : Array (Slot F)
  free : List Nat

namespace FunctionTable

variable {F : Type}

/-- A table of vacant slots, at least one. -/
def ofSize (size : Nat) : FunctionTable F :=
  ⟨Array.replicate (max size 1) .vacant, List.range (max size 1)⟩

/-- Number of slots. -/
def capacity (t : FunctionTable F) : Nat := t.slots.size

/-- The table with twice as many slots, the new ones vacant and free. -/
def grow (t : FunctionTable F) : FunctionTable F :=
  ⟨t.slots ++ Array.replicate t.slots.size .vacant, List.range' t.slots.size t.slots.size⟩

/-- Hand out the next free slot, doubling the table when there is none. -/
def alloc (t : FunctionTable F) : Nat × FunctionTable F :=
  let t := if t.free.isEmpty then t.grow else t
  (t.free.headD 0, { t with free := t.free.tail })

/-- The slot of a number. -/
def get? (t : FunctionTable F) (slot : Nat) : Option (Slot F) := t.slots[slot]?

/-- Replace a slot. -/
def set (t : FunctionTable F) (slot : Nat) (entry : Slot F) : FunctionTable F :=
  { t with slots := t.slots.setIfInBounds slot entry }

/-- Make every slot vacant and free. -/
def reset (t : FunctionTable F) : FunctionTable F :=
  ⟨Array.replicate t.slots.size .vacant, List.range t.slots.size⟩

end FunctionTable

end Dynarec.Linking
