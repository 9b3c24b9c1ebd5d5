import Dynarec.Word.Width

/-!
# Bit patterns

Runs of ones, rotation and replication of an element inside a word, sign extension, and the masks
that logical immediates and bitfield moves encode in the three fields `n`, `immr` and `imms`.
-/

namespace Dynarec.Bits

/-- The word whose low `n` bits are set. -/
def ones (n : Nat) : UInt64 :=
  if n < 64 then (1 <<< UInt64.ofNat n) - 1 else 0xffffffffffffffff

/-- Rotate the low `size` bits of a word right. -/
def rotateRight (value : UInt64) (size amount : Nat) : UInt64 :=
  let value := value &&& ones size
  let amount := amount % size
  if amount = 0 then value
  else
    ((value >>> UInt64.ofNat amount) ||| (value <<< UInt64.ofNat (size - amount))) &&& ones size

/-- Repeat the low `size` bits of a word until `width` bits are filled. -/
def replicate (pattern : UInt64) (size width : Nat) : UInt64 :=
  let pattern := pattern &&& ones size
  let copies := (width + size - 1) / size
  ((List.range copies).foldl (fun out i => out ||| pattern <<< UInt64.ofNat (i * size)) 0) &&&
    ones width

/-- The low `bits` bits of a word, read as a two's complement number, as a whole word. -/
def signExtend (value : UInt64) (bits : Nat) : UInt64 :=
  let shift := UInt64.ofNat (64 - bits)
  ((value <<< shift).toInt64 >>> shift.toInt64).toUInt64

/-- The two masks that `n`, `imms` and `immr` encode for a register width: a rotated run of ones
repeated over the register, and an unrotated run that covers the positions a bitfield move
inserts. There are none when no element size is encoded, when the element is wider than the
register, and for an immediate whose element would be all ones. -/
def decodeMasks (n imms immr : Nat) (immediate : Bool) (width : Width) :
    Option (UInt64 × UInt64) :=
  let combined := n % 2 * 64 + (63 - imms % 64)
  if combined < 2 then none
  else
    let size := 1 <<< combined.log2
    if width.bits < size then none
    else
      let s := imms % size
      let r := immr % size
      if immediate && s == size - 1 then none
      else
        let d := (size + s - r) % size
        some (replicate (rotateRight (ones (s + 1)) size r) size width.bits,
          replicate (ones (d + 1)) size width.bits)

/-- The value of a logical immediate. -/
def decodeLogical (n imms immr : Nat) (width : Width) : Option UInt64 :=
  (decodeMasks n imms immr true width).map Prod.fst

end Dynarec.Bits
