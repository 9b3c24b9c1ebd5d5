import Dynarec.Ir.Eval
import Dynarec.Proofs.Word.Bits

/-!
# Operators bit by bit

The bits of what the bitwise and the shifting operators give, at both widths, and values that cutting
to a width leaves as they are.
-/

namespace Dynarec

open Bits

namespace Width

variable (w : Width)

lemma bits_pos : 0 < w.bits := by cases w <;> decide

lemma bits_le : w.bits ≤ 64 := by cases w <;> decide

/-- Cutting a word twice is cutting it once. -/
@[simp] lemma and_mask_mask (v : UInt64) : v &&& w.mask &&& w.mask = v &&& w.mask := by
  rw [UInt64.and_assoc, UInt64.and_self]

/-- A truth value is as wide as nothing else is. -/
@[simp] lemma toUInt64_and_mask (b : Bool) : b.toUInt64 &&& w.mask = b.toUInt64 := by
  cases b <;> cases w <;> rfl

@[simp] lemma and_mask_w64 (v : UInt64) : v &&& Width.mask .w64 = v := by
  apply eq_of_bit
  intro i hi
  rw [bit_and, bit_mask]
  simp [bits, hi]

@[simp] lemma zero_and_mask : 0 &&& w.mask = 0 := UInt64.zero_and

end Width

namespace Ir

variable {w : Width} {a b : UInt64} {n i : Nat}

@[simp] lemma Ty.and_mask_i64 (v : UInt64) : v &&& Ty.mask .i64 = v := Width.and_mask_w64 v

@[simp] lemma Ty.toUInt64_and_mask (ty : Ty) (b : Bool) : b.toUInt64 &&& ty.mask = b.toUInt64 := by
  cases b <;> cases ty <;> rfl

/-- The amount of a shift by a constant. -/
lemma shift_amount (h : n < w.bits) : (UInt64.ofNat n &&& w.mask).toNat % w.bits = n := by
  have hle := w.bits_le
  have hnat : (UInt64.ofNat n).toNat = n := UInt64.toNat_ofNat_of_lt' (by
    show n < 18446744073709551616
    omega)
  have hcut : UInt64.ofNat n &&& w.mask = UInt64.ofNat n := by
    apply eq_of_bit
    intro i _
    rw [bit_and, bit_mask]
    by_cases hi : i < w.bits
    · simp [hi]
    · have hlt : n < 2 ^ i := by
        calc n < 2 ^ n := Nat.lt_two_pow_self
          _ ≤ 2 ^ i := Nat.pow_le_pow_right (by decide) (by omega)
      have hlow : bit (UInt64.ofNat n) i = false := by
        rw [bit_eq_testBit, hnat]
        exact Nat.testBit_lt_two_pow hlt
      simp [hlow]
  rw [hcut, hnat, Nat.mod_eq_of_lt h]

namespace BinOp

lemma bit_and : bit (BinOp.eval .and w a b) i = (decide (i < w.bits) && bit a i && bit b i) := by
  simp only [eval, Bits.bit_and, bit_mask]
  cases bit a i <;> cases bit b i <;> simp

lemma bit_or : bit (BinOp.eval .or w a b) i = (decide (i < w.bits) && (bit a i || bit b i)) := by
  simp only [eval, Bits.bit_and, Bits.bit_or, bit_mask]
  cases bit a i <;> cases bit b i <;> simp

lemma bit_xor : bit (BinOp.eval .xor w a b) i = (decide (i < w.bits) && (bit a i ^^ bit b i)) := by
  simp only [eval, Bits.bit_and, Bits.bit_xor, bit_mask]
  cases bit a i <;> cases bit b i <;> simp

lemma bit_shl (h : n < w.bits) : bit (BinOp.eval .shl w a (UInt64.ofNat n)) i =
    (decide (i < w.bits) && decide (n ≤ i) && bit a (i - n)) := by
  have hle := w.bits_le
  simp only [eval, shift_amount h, Bits.bit_and, bit_mask]
  rw [bit_shiftLeft (by omega), Bits.bit_and, bit_mask]
  by_cases hi : i < w.bits
  · have hin : i - n < w.bits := by omega
    simp [hi, hin, Nat.lt_of_lt_of_le hi hle]
  · simp [hi]

lemma bit_shrU (h : n < w.bits) : bit (BinOp.eval .shrU w a (UInt64.ofNat n)) i =
    (decide (n + i < w.bits) && bit a (n + i)) := by
  have hle := w.bits_le
  simp only [eval, shift_amount h, Bits.bit_and, bit_mask]
  rw [bit_shiftRight (by omega), Bits.bit_and, bit_mask]
  by_cases hi : n + i < w.bits
  · have hin : i < w.bits := by omega
    simp [hi, hin]
  · simp [hi]

lemma bit_rotR (h : n < w.bits) : bit (BinOp.eval .rotR w a (UInt64.ofNat n)) i =
    (decide (i < w.bits) && bit a ((i + n) % w.bits)) := by
  have hmod := Nat.mod_lt (i + n) w.bits_pos
  simp only [eval, shift_amount h, Bits.bit_and, bit_mask]
  rw [bit_rotateRight w.bits_pos w.bits_le, Nat.mod_eq_of_lt h, Bits.bit_and, bit_mask]
  by_cases hi : i < w.bits <;> simp [hi, hmod]

/-- The low part of a word, its top bit repeated. -/
lemma bit_toSigned (hi : i < 64) :
    bit (toSigned a w).toUInt64 i = bit a (min i (w.bits - 1)) := by
  have hpos := w.bits_pos
  change bit (signExtend (a &&& w.mask) w.bits) i = _
  rw [bit_signExtend hpos w.bits_le hi]
  split
  · next hlt =>
    rw [Nat.min_eq_left (Nat.le_sub_one_of_lt hlt)]
    simp [bit_mask, hlt]
  · next hge =>
    have hlast : w.bits - 1 < w.bits := by omega
    rw [Nat.min_eq_right (by omega)]
    simp [bit_mask, hlast]

lemma bit_shrS (h : n < w.bits) : bit (BinOp.eval .shrS w a (UInt64.ofNat n)) i =
    (decide (i < w.bits) && bit a (min (n + i) (w.bits - 1))) := by
  have hle := w.bits_le
  simp only [eval, shift_amount h, Bits.bit_and, bit_mask]
  by_cases hi : i < w.bits
  · have h64 := Nat.lt_of_lt_of_le hi hle
    have hshift : bit (toSigned (a &&& w.mask) w >>> (UInt64.ofNat n).toInt64).toUInt64 i =
        if n + i < 64 then bit (toSigned (a &&& w.mask) w).toUInt64 (n + i)
        else bit (toSigned (a &&& w.mask) w).toUInt64 63 := by
      have hbits := toBitVec_shiftRight_toInt64 (v := (toSigned (a &&& w.mask) w).toUInt64)
        (n := n) (by omega)
      change ((toSigned (a &&& w.mask) w >>> (UInt64.ofNat n).toInt64).toUInt64).toBitVec = _ at hbits
      rw [bit, hbits, BitVec.getLsbD_sshiftRight, BitVec.msb_eq_getLsbD_last]
      simp only [Nat.not_le.2 h64, decide_false, Bool.not_false, Bool.true_and]
      rfl
    have hcut : ∀ j < w.bits, bit (a &&& w.mask) j = bit a j := by
      intro j hj
      simp [bit_mask, hj]
    rw [hshift]
    split
    · next hlt =>
      rw [bit_toSigned hlt, hcut _ (by omega)]
      simp [hi]
    · next hge =>
      rw [bit_toSigned (by decide), hcut _ (by omega), Nat.min_eq_right (by omega),
        Nat.min_eq_right (by omega)]
      simp [hi]
  · simp [hi]

end BinOp

lemma bit_extend (h0 : 0 < n) (hn : n ≤ 64) (signed : Bool) (hi : i < 64) : bit (extend a n signed) i =
    if i < n then bit a i else signed && bit a (n - 1) := by
  unfold extend
  split
  · next hs =>
    rw [bit_signExtend h0 hn hi]
    split
    · next hlt => simp [bit_ones, hlt, hi]
    · have hlast : n - 1 < n := by omega
      have hlast' : n - 1 < 64 := by omega
      simp [bit_ones, hlast, hlast', hs]
  · next hs =>
    split
    · next hlt => simp [bit_ones, hlt, hi]
    · next hge => simp [bit_ones, hge, hs]

end Ir

end Dynarec
