import Mathlib.Tactic.Common
import Dynarec.Word.Bits

/-!
# Words bit by bit

The bits of a word, and those of the words that masks, rotations and sign extensions give.
-/

namespace Dynarec.Bits

/-- A bit of a word, the lowest one being bit 0. -/
def bit (v : UInt64) (i : Nat) : Bool := v.toBitVec.getLsbD i

variable {u v w : UInt64} {i n size amount : Nat}

/-- Words with the same bits are equal. -/
lemma eq_of_bit (h : ∀ i < 64, bit v i = bit w i) : v = w :=
  UInt64.toBitVec_inj.1 (BitVec.eq_of_getLsbD_eq h)

/-- The bits of a number of any width that is extended with zeros. -/
lemma bit_ofBitVec {m : Nat} {b : BitVec m} (hi : i < 64) :
    bit (.ofBitVec (b.setWidth 64)) i = b.getLsbD i := by
  show (b.setWidth 64).getLsbD i = _
  rw [BitVec.getLsbD_setWidth, decide_eq_true hi, Bool.true_and]

@[simp] lemma bit_zero : bit 0 i = false := by simp [bit]

@[simp] lemma bit_and : bit (v &&& w) i = (bit v i && bit w i) := by simp [bit]

@[simp] lemma bit_or : bit (v ||| w) i = (bit v i || bit w i) := by simp [bit]

@[simp] lemma bit_xor : bit (v ^^^ w) i = (bit v i ^^ bit w i) := by simp [bit]

lemma bit_not : bit (~~~v) i = (decide (i < 64) && !bit v i) := by simp [bit]

lemma bit_shiftLeft (h : n < 64) :
    bit (v <<< UInt64.ofNat n) i = (decide (i < 64) && decide (n ≤ i) && bit v (i - n)) := by
  have hn : n % 18446744073709551616 % 64 = n := by omega
  have hshift : bit (v <<< UInt64.ofNat n) i =
      (decide (i < 64) && !decide (i < n) && bit v (i - n)) := by
    simp [bit, UInt64.toBitVec_shiftLeft, hn]
  rw [hshift, ← decide_not]
  simp only [Nat.not_lt]

lemma bit_shiftRight (h : n < 64) : bit (v >>> UInt64.ofNat n) i = bit v (n + i) := by
  have hn : n % 18446744073709551616 % 64 = n := by omega
  simp [bit, UInt64.toBitVec_shiftRight, hn]

/-! ### Masks -/

/-- A bit of a word is that of its number. -/
lemma bit_eq_testBit : bit v i = v.toNat.testBit i := rfl

lemma bit_ones : bit (ones n) i = (decide (i < n) && decide (i < 64)) := by
  rw [bit_eq_testBit, ones]
  split
  · next h =>
    have hpow : 2 ^ n < 2 ^ 64 := Nat.pow_lt_pow_right (by decide) h
    have hpos : 0 < 2 ^ n := Nat.two_pow_pos n
    have hn : n % 18446744073709551616 % 64 = n := by omega
    have hshift : (1 <<< UInt64.ofNat n : UInt64).toNat = 2 ^ n := by
      simp only [UInt64.toNat_shiftLeft, UInt64.toNat_ofNat', UInt64.reduceToNat, Nat.reducePow, hn,
        Nat.one_shiftLeft]
      omega
    have hle : (1 : UInt64) ≤ 1 <<< UInt64.ofNat n := by
      rw [UInt64.le_iff_toNat_le, hshift]
      exact hpos
    rw [UInt64.toNat_sub_of_le _ _ hle, hshift]
    change (2 ^ n - 1).testBit i = _
    rw [Nat.testBit_two_pow_sub_one]
    by_cases hi : i < n
    · simp [hi, Nat.lt_trans hi h]
    · simp [hi]
  · next h =>
    change (2 ^ 64 - 1).testBit i = _
    rw [Nat.testBit_two_pow_sub_one]
    by_cases hi : i < 64
    · simp [hi, Nat.lt_of_lt_of_le hi (Nat.not_lt.1 h)]
    · simp [hi]

lemma bit_mask (w : Width) : bit w.mask i = decide (i < w.bits) := by
  cases w with
  | w32 => exact Nat.testBit_two_pow_sub_one 32 i
  | w64 => exact Nat.testBit_two_pow_sub_one 64 i

lemma bit_signBit (w : Width) : bit w.signBit i = decide (w.bits - 1 = i) := by
  cases w with
  | w32 => exact Nat.testBit_two_pow (n := 31)
  | w64 => exact Nat.testBit_two_pow (n := 63)

/-! ### Rotations and replications -/

lemma bit_rotateRight (hsize : 0 < size) (hle : size ≤ 64) :
    bit (rotateRight v size amount) i = (decide (i < size) && bit v ((i + amount % size) % size)) := by
  have hr := Nat.mod_lt amount hsize
  unfold rotateRight
  dsimp only
  generalize amount % size = r at hr
  by_cases hi : i < size
  · split
    · next h0 =>
      subst h0
      simp [bit_ones, hi, Nat.lt_of_lt_of_le hi hle, Nat.mod_eq_of_lt hi]
    · next h0 =>
      rw [bit_and, bit_or, bit_shiftRight (by omega), bit_shiftLeft (by omega), bit_and, bit_and,
        bit_ones, bit_ones, bit_ones]
      by_cases hwrap : i + r < size
      · have hlow : ¬ size - r ≤ i := by omega
        rw [Nat.mod_eq_of_lt hwrap, Nat.add_comm r i]
        simp [hi, hwrap, hlow, Nat.lt_of_lt_of_le hi hle, Nat.lt_of_lt_of_le hwrap hle]
      · have hhigh : size - r ≤ i := by omega
        have hout : ¬ r + i < size := by omega
        have hmod : (i + r) % size = i - (size - r) := by
          rw [Nat.mod_eq_sub_mod (by omega), Nat.mod_eq_of_lt (by omega)]
          omega
        have hin : i - (size - r) < size := by omega
        simp [hi, hhigh, hout, hmod, hin, Nat.lt_of_lt_of_le hi hle, Nat.lt_of_lt_of_le hin hle]
  · split <;> simp [bit_ones, hi]

/-- An element as wide as the register is taken once. -/
lemma replicate_self (hsize : 0 < size) : replicate v size size = v &&& ones size := by
  have hcopies : (size + size - 1) / size = 1 := by
    rw [Nat.div_eq_of_lt_le] <;> omega
  unfold replicate
  simp [hcopies, List.range_succ, UInt64.and_assoc]

/-- The size of the elements of a pattern that is as wide as its register. -/
lemma size_field {n imms : Nat} (hn : n < 2) (hs : imms < (Width.ofSizeBit n).bits) :
    2 ≤ n % 2 * 64 + (63 - imms % 64) ∧
      1 <<< (n % 2 * 64 + (63 - imms % 64)).log2 = (Width.ofSizeBit n).bits := by
  obtain rfl | rfl : n = 0 ∨ n = 1 := by omega
  · have hlt : imms < 32 := hs
    have hlog : (0 % 2 * 64 + (63 - imms % 64)).log2 = 5 := by
      rw [Nat.log2_eq_iff] <;> omega
    exact ⟨by omega, by rw [hlog]; rfl⟩
  · have hlt : imms < 64 := hs
    have hlog : (1 % 2 * 64 + (63 - imms % 64)).log2 = 6 := by
      rw [Nat.log2_eq_iff] <;> omega
    exact ⟨by omega, by rw [hlog]; rfl⟩

/-- The masks of a bitfield move whose pattern is as wide as its register: the run of ones, rotated,
and the positions up to the highest one that the field takes. -/
lemma decodeMasks_field {n imms immr : Nat} (hn : n < 2) (hs : imms < (Width.ofSizeBit n).bits)
    (hr : immr < (Width.ofSizeBit n).bits) :
    ∃ wmask tmask, decodeMasks n imms immr false (Width.ofSizeBit n) = some (wmask, tmask) ∧
      (∀ i, bit wmask i = decide (i < (Width.ofSizeBit n).bits ∧
        (i + immr) % (Width.ofSizeBit n).bits ≤ imms)) ∧
      ∀ i, bit tmask i = decide (i < (Width.ofSizeBit n).bits ∧
        i ≤ ((Width.ofSizeBit n).bits + imms - immr) % (Width.ofSizeBit n).bits) := by
  obtain ⟨htwo, hsize⟩ := size_field hn hs
  generalize Width.ofSizeBit n = w at hs hr hsize
  have hpos : 0 < w.bits := by cases w <;> decide
  have hle : w.bits ≤ 64 := by cases w <;> decide
  have hdecode : decodeMasks n imms immr false w =
      some (rotateRight (ones (imms + 1)) w.bits immr &&& ones w.bits,
        ones ((w.bits + imms - immr) % w.bits + 1) &&& ones w.bits) := by
    unfold decodeMasks
    simp only [Nat.not_lt.2 htwo, if_false, hsize, Nat.lt_irrefl, Bool.false_and, Bool.false_eq_true,
      Nat.mod_eq_of_lt hs, Nat.mod_eq_of_lt hr, replicate_self hpos]
  refine ⟨_, _, hdecode, fun i => ?_, fun i => ?_⟩
  · have hmod := Nat.mod_lt (i + immr) hpos
    rw [bit_and, bit_rotateRight hpos hle, bit_ones, bit_ones, Nat.mod_eq_of_lt hr]
    generalize (i + immr) % w.bits = j at hmod
    have hj : j < 64 := by omega
    by_cases hi : i < w.bits
    · simp [hi, hj, Nat.lt_of_lt_of_le hi hle, Nat.lt_succ_iff]
    · simp [hi]
  · rw [bit_and, bit_ones, bit_ones]
    by_cases hi : i < w.bits
    · simp [hi, Nat.lt_of_lt_of_le hi hle, Nat.lt_succ_iff]
    · simp [hi]

/-! ### Signs -/

lemma toBitVec_shiftRight_toInt64 (h : n < 64) :
    ((v.toInt64 >>> (UInt64.ofNat n).toInt64).toUInt64).toBitVec = v.toBitVec.sshiftRight n := by
  have hsmod : ∀ n : Fin 64, (BitVec.ofNat 64 n).smod 64#64 = BitVec.ofNat 64 n := by decide
  have hn : n % 18446744073709551616 = n := by omega
  change BitVec.sshiftRight' v.toBitVec ((BitVec.ofNat 64 n).smod 64#64) = _
  rw [hsmod ⟨n, h⟩, BitVec.sshiftRight']
  simp [hn]

/-- Extending the sign repeats the top one of the low bits. -/
lemma bit_signExtend (h0 : 0 < n) (hn : n ≤ 64) (hi : i < 64) :
    bit (signExtend v n) i = if i < n then bit v i else bit v (n - 1) := by
  rw [signExtend, bit, toBitVec_shiftRight_toInt64 (by omega), BitVec.getLsbD_sshiftRight,
    BitVec.msb_eq_getLsbD_last]
  have hleft : ∀ j, (v <<< UInt64.ofNat (64 - n)).toBitVec.getLsbD j =
      (decide (j < 64) && decide (64 - n ≤ j) && bit v (j - (64 - n))) := fun j =>
    bit_shiftLeft (by omega)
  rw [hleft, hleft]
  by_cases hlt : i < n
  · have hin : 64 - n + i < 64 := by omega
    have hsub : 64 - n + i - (64 - n) = i := by omega
    simp [hi, hlt, hin, hsub]
  · have hout : ¬ 64 - n + i < 64 := by omega
    have hsub : 64 - 1 - (64 - n) = n - 1 := by omega
    have htop : 64 ≤ 63 + n := by omega
    simp [hlt, hout, hsub, htop, Nat.not_le.2 hi]

end Dynarec.Bits
