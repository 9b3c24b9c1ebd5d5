import Dynarec.Cpu.Flags
import Dynarec.Proofs.Ir.Eval

/-!
# Addition by operators

The operators that form a sum with its flags in two steps, and the addition with carry of the processor.
A difference is the sum with the complement and a carry.
-/

namespace Dynarec

open Bits

lemma Bits.bit_toUInt64 {b : Bool} {i : Nat} : bit b.toUInt64 i = (decide (i = 0) && b) := by
  cases b with
  | false => simp [Bool.toUInt64]
  | true =>
    rw [bit_eq_testBit]
    cases i with
    | zero => rfl
    | succ i => simp [Bool.toUInt64, Nat.testBit_succ]

/-- A word is negative at a width when its top bit there is set. -/
lemma Width.and_signBit_ne_zero (w : Width) (v : UInt64) :
    (v &&& w.signBit != 0) = bit v (w.bits - 1) := by
  have hpos := w.bits_pos
  have hle := w.bits_le
  cases hv : bit v (w.bits - 1) with
  | true =>
    have hne : v &&& w.signBit ≠ 0 := by
      intro h0
      have hbit := congrArg (bit · (w.bits - 1)) h0
      simp [bit_signBit, hv] at hbit
    simpa using hne
  | false =>
    have h0 : v &&& w.signBit = 0 := by
      apply eq_of_bit
      intro i _
      rw [bit_and, bit_signBit, bit_zero]
      by_cases hi : w.bits - 1 = i
      · simp [← hi, hv]
      · simp [hi]
    simp [h0]

namespace Ir

variable {w : Width} {x y : UInt64} {c : Bool}

/-- Shifting a word down by all but one of its bits leaves its sign. -/
lemma shrU_sign (w : Width) (v : UInt64) :
    BinOp.eval .shrU w v (UInt64.ofNat (w.bits - 1)) = (bit v (w.bits - 1)).toUInt64 := by
  have hpos := w.bits_pos
  apply eq_of_bit
  intro i _
  rw [BinOp.bit_shrU (by omega), bit_toUInt64]
  by_cases hi : i = 0
  · subst hi
    have hlt : w.bits - 1 < w.bits := by omega
    simp [hlt]
  · have hge : ¬ w.bits - 1 + i < w.bits := by omega
    simp [hi, hge]

lemma eval_xor_toUInt64 (b d : Bool) :
    BinOp.eval .xor .w64 b.toUInt64 d.toUInt64 = (b ^^ d).toUInt64 := by
  cases b <;> cases d <;> rfl

lemma eval_and_toUInt64 (b d : Bool) :
    BinOp.eval .and .w64 b.toUInt64 d.toUInt64 = (b && d).toUInt64 := by
  cases b <;> cases d <;> rfl

lemma holds_eq_toUInt64 (b d : Bool) :
    CmpOp.holds .eq .w64 b.toUInt64 d.toUInt64 = (b == d) := by
  cases b <;> cases d <;> rfl

/-- The exclusive or with ones is the complement. -/
lemma eval_xor_ones (w : Width) (x : UInt64) :
    BinOp.eval .xor w x 0xffffffffffffffff = ~~~x &&& w.mask := by
  apply eq_of_bit
  intro i hi
  rw [BinOp.bit_xor, bit_and, bit_not, bit_mask,
    show (0xffffffffffffffff : UInt64) = Width.mask .w64 from rfl, bit_mask]
  simp [Width.bits, hi, Bool.and_comm]

lemma xor_toUInt64 (b d : Bool) :
    (BinOp.eval .xor .w64 b.toUInt64 d.toUInt64 != 0) = (b ^^ d) := by
  cases b <;> cases d <;> rfl

/-- The two sums that an addition with carry forms. -/
lemma addWithCarry_fst (x y : UInt64) (c : Bool) (w : Width) : (Cpu.addWithCarry x y c w).1 =
    BinOp.eval .add w (BinOp.eval .add w x y) c.toUInt64 := by
  simp [Cpu.addWithCarry, Cpu.addStep, BinOp.eval]

/-- An addition only reads its operands below its width. -/
lemma addWithCarry_congr {x' y' : UInt64} (hx : x &&& w.mask = x' &&& w.mask)
    (hy : y &&& w.mask = y' &&& w.mask) :
    Cpu.addWithCarry x y c w = Cpu.addWithCarry x' y' c w := by
  simp only [Cpu.addWithCarry, hx, hy]

lemma add_eq_addWithCarry (x y : UInt64) (w : Width) :
    BinOp.eval .add w x y = (Cpu.addWithCarry x y false w).1 := by
  rw [addWithCarry_fst]
  simp [BinOp.eval, Bool.toUInt64]

lemma addWithCarry_n (x y : UInt64) (c : Bool) (w : Width) : (Cpu.addWithCarry x y c w).2.n =
    bit (Cpu.addWithCarry x y c w).1 (w.bits - 1) :=
  w.and_signBit_ne_zero _

lemma addWithCarry_z (x y : UInt64) (c : Bool) (w : Width) : (Cpu.addWithCarry x y c w).2.z =
    ((Cpu.addWithCarry x y c w).1 &&& w.mask == 0) := by
  simp only [Cpu.addWithCarry, Cpu.addStep, Width.and_mask_mask]

lemma addWithCarry_c (x y : UInt64) (c : Bool) (w : Width) : (Cpu.addWithCarry x y c w).2.c =
    (CmpOp.ltU.holds w (BinOp.eval .add w x y) x ^^
      CmpOp.ltU.holds w (Cpu.addWithCarry x y c w).1 (BinOp.eval .add w x y)) := by
  simp only [Cpu.addWithCarry, Cpu.addStep, BinOp.eval, CmpOp.holds, Width.and_mask_mask]
  rfl

/-- The operators that tell whether a sum overflows. The second summand counts by its sign only. -/
lemma overflow_sign (a b sum : UInt64) : bit (BinOp.eval .and w (BinOp.eval .xor w a sum)
    (BinOp.eval .xor w b sum)) (w.bits - 1) =
      ((bit a (w.bits - 1) ^^ bit sum (w.bits - 1)) && (bit b (w.bits - 1) ^^ bit sum (w.bits - 1))) := by
  have hlt : w.bits - 1 < w.bits := Nat.sub_one_lt_of_lt w.bits_pos
  rw [BinOp.bit_and, BinOp.bit_xor, BinOp.bit_xor]
  simp [hlt]

/-- A truth value is not negative. -/
lemma bit_toUInt64_sign (w : Width) (b : Bool) : bit b.toUInt64 (w.bits - 1) = false := by
  have h : w.bits - 1 ≠ 0 := by cases w <;> decide
  simp [bit_toUInt64, h]

lemma addWithCarry_v (x y : UInt64) (c : Bool) (w : Width) : (Cpu.addWithCarry x y c w).2.v =
    (((bit x (w.bits - 1) ^^ bit (BinOp.eval .add w x y) (w.bits - 1)) &&
      (bit y (w.bits - 1) ^^ bit (BinOp.eval .add w x y) (w.bits - 1))) ^^
    ((bit (BinOp.eval .add w x y) (w.bits - 1) ^^ bit (Cpu.addWithCarry x y c w).1 (w.bits - 1)) &&
      bit (Cpu.addWithCarry x y c w).1 (w.bits - 1))) := by
  have hlt : w.bits - 1 < w.bits := Nat.sub_one_lt_of_lt w.bits_pos
  rw [addWithCarry_fst]
  simp only [Cpu.addWithCarry, Cpu.addStep, w.and_signBit_ne_zero, BinOp.eval, bit_and, bit_xor,
    bit_mask, hlt, decide_true, Bool.and_true, Width.and_mask_mask, Width.toUInt64_and_mask,
    bit_toUInt64_sign, Bool.false_xor]

/-- A difference is the sum with the complement and a carry. -/
lemma sub_eq_addWithCarry (x y : UInt64) (w : Width) :
    BinOp.eval .sub w x y = (Cpu.addWithCarry x (~~~y) true w).1 := by
  rw [addWithCarry_fst]
  simp only [BinOp.eval]
  have hmask : ∀ v : UInt64, (v &&& w.mask).toNat = v.toNat % 2 ^ w.bits := by
    intro v
    rw [UInt64.toNat_and]
    cases w with
    | w32 => exact Nat.and_two_pow_sub_one_eq_mod v.toNat 32
    | w64 => exact Nat.and_two_pow_sub_one_eq_mod v.toNat 64
  rw [← UInt64.toNat_inj]
  have hx := x.toNat_lt
  have hy := y.toNat_lt
  have hone : (true.toUInt64).toNat = 1 := rfl
  simp only [hmask, UInt64.toNat_add, UInt64.toNat_sub, hone, UInt64.toNat_not, UInt64.size]
  cases w <;> simp only [Width.bits] <;> omega

end Ir

end Dynarec
