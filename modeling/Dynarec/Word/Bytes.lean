/-!
# Little-endian bytes

Words are stored in byte arrays with the least significant byte first. Reading past the end gives
zero bytes and writing past the end is dropped; callers check the range where that matters.
-/

namespace Dynarec.Bytes

/-- The byte at an index, zero past the end. -/
def get (bytes : ByteArray) (i : Nat) : UInt8 := if h : i < bytes.size then bytes[i] else 0

/-- Replace the byte at an index, if there is one. -/
def set (bytes : ByteArray) (i : Nat) (b : UInt8) : ByteArray :=
  if h : i < bytes.size then bytes.set i b else bytes

/-- The word of `count` bytes from an index. -/
def readWord (bytes : ByteArray) (i : Nat) : (count : Nat) → UInt64
  | 0 => 0
  | count + 1 => (get bytes i).toUInt64 ||| readWord bytes (i + 1) count <<< 8

/-- Write the low `count` bytes of a word from an index. -/
def writeWord (bytes : ByteArray) (i : Nat) : (count : Nat) → UInt64 → ByteArray
  | 0, _ => bytes
  | count + 1, value => writeWord (set bytes i value.toUInt8) (i + 1) count (value >>> 8)

/-- So many zero bytes. -/
def zeros (size : Nat) : ByteArray := Nat.repeat (·.push 0) size (.emptyWithCapacity size)

/-- Pushing zeros appends them. -/
theorem data_repeat_push (size : Nat) (bytes : ByteArray) :
    (Nat.repeat (·.push 0) size bytes).data = bytes.data ++ Array.replicate size 0 := by
  induction size with
  | zero => simp [Nat.repeat]
  | succ size ih =>
    change (Nat.repeat (·.push 0) size bytes).data.push 0 = _
    rw [ih, Array.replicate_succ, Array.append_push]

/-- All the zeros are zero, and there are as many as asked for. -/
theorem data_zeros (size : Nat) : (zeros size).data = Array.replicate size 0 := by
  rw [zeros, data_repeat_push]
  exact Array.empty_append

/-- The bytes of a word. -/
def ofWord (count : Nat) (value : UInt64) : ByteArray := writeWord (zeros count) 0 count value

end Dynarec.Bytes
