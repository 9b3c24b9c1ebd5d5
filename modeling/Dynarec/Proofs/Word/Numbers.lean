import Mathlib.Algebra.Group.Int.Defs
import Mathlib.Algebra.Group.Nat.Defs
import Mathlib.Tactic.Common
import Dynarec.Proofs.Word.Bits

/-!
# Numbers in words

The low part of a word at a width as a natural number and, in two's complement, as an integer. Cutting a
word to a width keeps both, and extending the sign of some low bits keeps the integer that they denote.
-/

namespace Dynarec

open Bits (bit ones signExtend)

/-! ### Extended bits -/

namespace Bits

variable {v : UInt64} {n : Nat}

/-- The low bits of a word as a number. -/
lemma toNat_and_ones (h : n ≤ 64) : (v &&& ones n).toNat = v.toNat % 2 ^ n := by
  apply Nat.eq_of_testBit_eq
  intro i
  rw [← bit_eq_testBit, bit_and, bit_ones, Nat.testBit_mod_two_pow, ← bit_eq_testBit]
  by_cases hi : i < n
  · simp [hi, Nat.lt_of_lt_of_le hi h]
  · simp [hi]

/-- The low bits of a word, with the sign extended, denote the integer that they denote alone. -/
lemma toInt_signExtend (h0 : 0 < n) (hn : n ≤ 64) :
    (signExtend v n).toInt64.toInt = (v.toNat : Int).bmod (2 ^ n) := by
  have hbits : (signExtend v n).toBitVec = (v.toBitVec.setWidth n).signExtend 64 := by
    apply BitVec.eq_of_getLsbD_eq
    intro i hi
    have hlast : n - 1 < n := by omega
    show bit (signExtend v n) i = _
    rw [bit_signExtend h0 hn hi, BitVec.getLsbD_signExtend, BitVec.msb_eq_getLsbD_last,
      BitVec.getLsbD_setWidth, BitVec.getLsbD_setWidth]
    by_cases hlt : i < n
    · simp [hi, hlt, bit]
    · simp [hi, hlt, hlast, bit]
  show (signExtend v n).toBitVec.toInt = _
  rw [hbits, BitVec.toInt_signExtend_of_le hn, BitVec.toInt_setWidth]
  rfl

end Bits

namespace Width

variable (w : Width) (u v : UInt64)

/-- The low part of a word as a number. -/
def unsigned : Nat := v.toNat % 2 ^ w.bits

/-- The low part of a word as a number in two's complement. -/
def signed : Int := (v.toNat : Int).bmod (2 ^ w.bits)

variable {w u v}

lemma unsigned_lt : w.unsigned v < 2 ^ w.bits := Nat.mod_lt _ (Nat.two_pow_pos _)

lemma toNat_and_mask : (v &&& w.mask).toNat = w.unsigned v := by
  cases w with
  | w32 => exact Bits.toNat_and_ones (n := 32) (by decide)
  | w64 => exact Bits.toNat_and_ones (n := 64) (by decide)

@[simp] lemma unsigned_and_mask : w.unsigned (v &&& w.mask) = w.unsigned v := by
  rw [unsigned, toNat_and_mask, Nat.mod_eq_of_lt unsigned_lt]

/-- Words are as one below a width when they have one number there. -/
lemma and_mask_eq_iff : u &&& w.mask = v &&& w.mask ↔ w.unsigned u = w.unsigned v := by
  rw [← UInt64.toNat_inj, toNat_and_mask, toNat_and_mask]

/-- The integer of the low part goes by its number. -/
lemma signed_eq_bmod : w.signed v = (w.unsigned v : Int).bmod (2 ^ w.bits) := by
  rw [signed, unsigned, Int.natCast_emod, Int.natCast_pow, Int.cast_ofNat_Int]
  exact (Int.emod_bmod ..).symm

lemma signed_congr (h : w.unsigned u = w.unsigned v) : w.signed u = w.signed v := by
  rw [signed_eq_bmod, signed_eq_bmod, h]

@[simp] lemma signed_and_mask : w.signed (v &&& w.mask) = w.signed v := signed_congr unsigned_and_mask

/-- Half of the numbers of a width, from which on they stand for negative ones. -/
lemma two_pow_bits : 2 ^ w.bits = 2 * 2 ^ (w.bits - 1) := by cases w <;> rfl

/-- The two ranges of an integer in two's complement. -/
lemma signed_cases : (w.unsigned v < 2 ^ (w.bits - 1) ∧ w.signed v = w.unsigned v) ∨
    (2 ^ (w.bits - 1) ≤ w.unsigned v ∧ w.signed v = w.unsigned v - 2 ^ w.bits) := by
  have hlt : w.unsigned v < 2 ^ w.bits := unsigned_lt
  rw [signed_eq_bmod, Int.bmod_def]
  cases w
  all_goals
    simp only [bits, Nat.reducePow, Nat.reduceSub, Int.cast_ofNat_Int] at hlt ⊢
    omega

/-- The top bit of the low part tells whether its number is in the upper half. -/
lemma bit_last : bit v (w.bits - 1) = decide (2 ^ (w.bits - 1) ≤ w.unsigned v) := by
  have hlt : w.unsigned v < 2 ^ w.bits := unsigned_lt
  have hcut : bit v (w.bits - 1) = (w.unsigned v).testBit (w.bits - 1) := by
    have hlast : w.bits - 1 < w.bits := by cases w <;> decide
    rw [unsigned, Nat.testBit_mod_two_pow, ← Bits.bit_eq_testBit, decide_eq_true hlast, Bool.true_and]
  rw [hcut, Bool.eq_iff_iff, decide_eq_true_iff]
  refine ⟨Nat.ge_two_pow_of_testBit, fun hle => ?_⟩
  rw [two_pow_bits, ← Nat.pow_succ'] at hlt
  exact Nat.testBit_of_two_pow_le_and_two_pow_add_one_gt hle hlt

/-- The top bit of the low part tells whether its integer is negative. -/
lemma signed_neg_iff : w.signed v < 0 ↔ bit v (w.bits - 1) = true := by
  have hlt : w.unsigned v < 2 ^ w.bits := unsigned_lt
  rw [bit_last, decide_eq_true_iff]
  rcases signed_cases (w := w) (v := v) with ⟨h, hs⟩ | ⟨h, hs⟩
  · omega
  · have hcast : ((2 ^ w.bits : Nat) : Int) = 2 ^ w.bits := by simp
    omega

end Width

end Dynarec
