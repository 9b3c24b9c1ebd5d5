import Dynarec.Text.Hex
import Dynarec.Word.Bytes

/-!
# Guest memory

Guest memory is a flat run of bytes from address zero, little-endian. An access succeeds exactly
when its address plus its length, without wrapping, stays within the size; an access that fails
changes nothing.
-/

namespace Dynarec

/-- Size of a guest access. -/
inductive AccessSize where
  | byte
  | half
  | word
  | double
  deriving DecidableEq, Repr

namespace AccessSize

/-- The size whose number of bytes is two to the power of the low two bits of a number. -/
def ofLog2 (n : Nat) : AccessSize :=
  match n % 4 with
  | 0 => .byte
  | 1 => .half
  | 2 => .word
  | _ => .double

/-- The power of two that gives the number of bytes. -/
def log2 : AccessSize → Nat
  | .byte => 0
  | .half => 1
  | .word => 2
  | .double => 3

/-- Number of bytes. -/
def bytes (size : AccessSize) : Nat := 1 <<< size.log2

end AccessSize

/-- Guest memory. -/
structure Memory where
  bytes : ByteArray

namespace Memory

/-- A guest access that does not lie in memory. -/
inductive Error where
  | outOfBounds (addr : UInt64) (len size : Nat)
  deriving DecidableEq, Repr

/-- What is said to the user about a failed access. -/
def Error.message : Error → String
  | .outOfBounds addr len size =>
    s!"guest access of {len} bytes at " ++ Text.hex addr.toNat ++
      " is outside of RAM (size " ++ Text.hex size ++ ")"

/-- Zeroed memory of a size. -/
def zeroed (size : Nat) : Memory := ⟨Bytes.zeros size⟩

/-- Number of bytes. -/
def size (m : Memory) : Nat := m.bytes.size

/-- Whether `len` bytes from an address lie in memory. -/
def inRange (m : Memory) (addr : UInt64) (len : Nat) : Bool := addr.toNat + len ≤ m.size

/-- Read `len` bytes. -/
def readBytes (m : Memory) (addr : UInt64) (len : Nat) : Except Error ByteArray :=
  if m.inRange addr len then .ok (m.bytes.extract addr.toNat (addr.toNat + len))
  else .error (.outOfBounds addr len m.size)

/-- Write bytes. -/
def writeBytes (addr : UInt64) (data : ByteArray) : EStateM Error Memory Unit := fun m =>
  if m.inRange addr data.size then .ok () ⟨data.copySlice 0 m.bytes addr.toNat data.size⟩
  else .error (.outOfBounds addr data.size m.size) m

/-- Read a value, extended with zeros. -/
def read (m : Memory) (addr : UInt64) (size : AccessSize) : Except Error UInt64 :=
  if m.inRange addr size.bytes then .ok (Bytes.readWord m.bytes addr.toNat size.bytes)
  else .error (.outOfBounds addr size.bytes m.size)

/-- Write the low bytes of a value. -/
def write (addr : UInt64) (size : AccessSize) (value : UInt64) : EStateM Error Memory Unit :=
  fun m =>
    if m.inRange addr size.bytes then
      .ok () ⟨Bytes.writeWord m.bytes addr.toNat size.bytes value⟩
    else .error (.outOfBounds addr size.bytes m.size) m

/-- The maximal runs of bytes in which a memory differs from an earlier one of its size, with
their addresses and new bytes. -/
def changes (before after : Memory) : List (Nat × ByteArray) :=
  let changed := (List.range after.size).filter fun i =>
    Bytes.get before.bytes i != Bytes.get after.bytes i
  (changed.splitBy fun i j => j == i + 1).map fun run =>
    let start := run.headD 0
    (start, after.bytes.extract start (start + run.length))

end Memory

end Dynarec
