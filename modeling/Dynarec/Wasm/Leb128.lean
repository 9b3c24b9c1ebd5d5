/-!
# LEB128

Numbers as bytes of seven bits each, the lowest first, every byte but the last with its high bit
set, in the fewest bytes. A signed number ends when what is left is only its sign.
-/

namespace Dynarec.Wasm.Leb128

/-- The bytes of an unsigned number. -/
def unsigned (n : Nat) : List UInt8 :=
  if n < 128 then [UInt8.ofNat n] else UInt8.ofNat (n % 128 + 128) :: unsigned (n / 128)
termination_by n
decreasing_by omega

/-- The bytes of a signed number. -/
def signed (n : Int) : List UInt8 :=
  if -64 ≤ n ∧ n < 64 then [UInt8.ofNat (n % 128).toNat]
  else UInt8.ofNat ((n % 128).toNat + 128) :: signed (n / 128)
termination_by n.natAbs
decreasing_by omega

end Dynarec.Wasm.Leb128
