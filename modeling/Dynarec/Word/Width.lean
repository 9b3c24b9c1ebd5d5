/-!
# Register widths

A general register is used either whole, as 64 bits, or through its low 32 bits.
-/

namespace Dynarec

/-- Width of an access to a general register. -/
inductive Width where
  | w32
  | w64
  deriving DecidableEq, Repr

namespace Width

/-- Number of bits. -/
def bits : Width → Nat
  | .w32 => 32
  | .w64 => 64

/-- The word whose bits below the width are set. -/
def mask : Width → UInt64
  | .w32 => 0xffffffff
  | .w64 => 0xffffffffffffffff

/-- The word whose only set bit is the top one of the width. -/
def signBit : Width → UInt64
  | .w32 => 0x80000000
  | .w64 => 0x8000000000000000

/-- The width that the size bit of an encoding selects. -/
def ofSizeBit (sf : Nat) : Width := if sf % 2 = 1 then .w64 else .w32

end Width

end Dynarec
