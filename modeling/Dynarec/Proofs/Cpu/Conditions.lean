import Dynarec.Cpu.Cond
import Dynarec.Proofs.Ir.Addition
import Dynarec.Proofs.Ir.Operators

/-!
# Flags and the order of numbers

The flags of a sum with carry are those of the numbers that its operands denote: the carry is that of the sum
of natural numbers and the overflow that of the sum of integers, although both are formed in two steps. So
the conditions on the flags of a difference tell how its operands are ordered, without a sign and with it.
-/

namespace Dynarec

open Bits (bit)

namespace Cpu

variable {w : Width} {x y : UInt64} {c : Bool}

/-! ### Sums -/

/-- The sum of numbers with a carry, which may be too large for the width. -/
def total (w : Width) (x y : UInt64) (c : Bool) : Nat := w.unsigned x + w.unsigned y + c.toNat

/-- The sum of integers with a carry. -/
def signedTotal (w : Width) (x y : UInt64) (c : Bool) : Int := w.signed x + w.signed y + c.toNat

lemma unsigned_add : w.unsigned (Ir.BinOp.eval .add w x y) =
    (w.unsigned x + w.unsigned y) % 2 ^ w.bits := by
  rw [Ir.BinOp.eval, Width.unsigned_and_mask, Ir.unsigned_of_toNat (UInt64.toNat_add ..),
    Width.toNat_and_mask, Width.toNat_and_mask]

lemma unsigned_toUInt64 : w.unsigned c.toUInt64 = c.toNat := by cases c <;> cases w <;> rfl

lemma unsigned_addWithCarry :
    w.unsigned (addWithCarry x y c w).1 = total w x y c % 2 ^ w.bits := by
  rw [Ir.addWithCarry_fst, unsigned_add, unsigned_add, unsigned_toUInt64, Nat.mod_add_mod, total]

/-- The result is the sum, cut to the width. -/
lemma toNat_addWithCarry : (addWithCarry x y c w).1.toNat = total w x y c % 2 ^ w.bits := by
  rw [← unsigned_addWithCarry, Ir.addWithCarry_fst, Ir.BinOp.eval, Width.unsigned_and_mask,
    Width.toNat_and_mask]

lemma xor_decide {p q : Prop} [Decidable p] [Decidable q] :
    (decide p ^^ decide q) = true ↔ ¬ (p ↔ q) := by
  by_cases hp : p <;> by_cases hq : q <;> simp [hp, hq]

/-- There is a carry when the sum is above the greatest number of the width. -/
lemma carry_addWithCarry :
    (addWithCarry x y c w).2.c = true ↔ w.mask.toNat < total w x y c := by
  have hx : w.unsigned x < 2 ^ w.bits := Width.unsigned_lt
  have hy : w.unsigned y < 2 ^ w.bits := Width.unsigned_lt
  have hlt : ∀ a b, Ir.CmpOp.holds .ltU w a b = decide (w.unsigned a < w.unsigned b) := fun a b => by
    rw [Bool.eq_iff_iff, Ir.CmpOp.holds_iff, decide_eq_true_iff, Ir.CmpOp.Relates]
  have hc : c.toNat ≤ 1 := Bool.toNat_le c
  rw [Ir.addWithCarry_c, hlt, hlt, xor_decide, unsigned_addWithCarry, unsigned_add, total]
  cases w
  all_goals
    simp only [Width.bits, Width.mask, Nat.reducePow, UInt64.reduceToNat] at hx hy ⊢
    omega

/-- The overflow of a sum that is formed in two steps, by the halves in which the numbers are. The two steps
never overflow both. -/
lemma overflow_steps {p q s r : Prop} [Decidable p] [Decidable q] [Decidable s] [Decidable r] :
    (((decide p ^^ decide s) && (decide q ^^ decide s)) ^^
      ((decide s ^^ decide r) && decide r)) = true ↔
    ¬ ((¬ (p ↔ s) ∧ ¬ (q ↔ s)) ↔ (¬ s ∧ r)) := by
  by_cases hp : p <;> by_cases hq : q <;> by_cases hs : s <;> by_cases hr : r <;>
    simp [hp, hq, hs, hr]

/-- The signed sum overflows when the result does not denote it. -/
lemma overflow_addWithCarry : (addWithCarry x y c w).2.v = true ↔
    signedTotal w x y c ≠ w.signed (addWithCarry x y c w).1 := by
  have hx : w.unsigned x < 2 ^ w.bits := Width.unsigned_lt
  have hy : w.unsigned y < 2 ^ w.bits := Width.unsigned_lt
  have hxs := w.signed_cases (v := x)
  have hys := w.signed_cases (v := y)
  have hrs := w.signed_cases (v := (addWithCarry x y c w).1)
  have hc : c.toNat ≤ 1 := Bool.toNat_le c
  rw [Ir.addWithCarry_v, Width.bit_last, Width.bit_last, Width.bit_last, Width.bit_last, overflow_steps,
    unsigned_addWithCarry, unsigned_add, signedTotal]
  rw [unsigned_addWithCarry] at hrs
  simp only [total] at hrs ⊢
  cases w
  all_goals
    simp only [Width.bits, Nat.reduceSub, Nat.reducePow, Int.reducePow] at hx hy hxs hys hrs ⊢
    omega

/-- The result is negative when its top bit is set. -/
lemma negative_addWithCarry : (addWithCarry x y c w).2.n = true ↔
    w.signed (addWithCarry x y c w).1 < 0 := by
  rw [Ir.addWithCarry_n, Width.signed_neg_iff]

lemma zero_addWithCarry : (addWithCarry x y c w).2.z = true ↔ (addWithCarry x y c w).1 = 0 := beq_iff_eq

/-- What a sum with carry gives at a width: the sum of the numbers that the operands denote, cut to the width, and
what the flags tell of it. -/
structure SumExact (w : Width) (x y : UInt64) (c : Bool) : Prop where
  result : (addWithCarry x y c w).1.toNat = total w x y c % 2 ^ w.bits
  negative : (addWithCarry x y c w).2.n = bit (addWithCarry x y c w).1 (w.bits - 1)
  zero : (addWithCarry x y c w).2.z = true ↔ (addWithCarry x y c w).1 = 0
  carry : (addWithCarry x y c w).2.c = true ↔ w.mask.toNat < total w x y c
  overflow : (addWithCarry x y c w).2.v = true ↔
    signedTotal w x y c ≠ w.signed (addWithCarry x y c w).1

lemma sumExact (w : Width) (x y : UInt64) (c : Bool) : SumExact w x y c where
  result := toNat_addWithCarry
  negative := Ir.addWithCarry_n ..
  zero := zero_addWithCarry
  carry := carry_addWithCarry
  overflow := overflow_addWithCarry

/-! ### Differences -/

lemma unsigned_not : w.unsigned (~~~y) = 2 ^ w.bits - 1 - w.unsigned y := by
  have hy := y.toNat_lt
  simp only [Width.unsigned, UInt64.toNat_not, UInt64.size]
  cases w
  all_goals
    simp only [Width.bits, Nat.reducePow] at hy ⊢
    omega

/-- The sum with the complement and a carry is the difference. -/
lemma total_subtract : total w x (~~~y) true = w.unsigned x + 2 ^ w.bits - w.unsigned y := by
  have hy : w.unsigned y < 2 ^ w.bits := Width.unsigned_lt
  rw [total, unsigned_not, Bool.toNat_true]
  omega

lemma signedTotal_subtract : signedTotal w x (~~~y) true = w.signed x - w.signed y := by
  have hy : w.unsigned y < 2 ^ w.bits := Width.unsigned_lt
  have hys := w.signed_cases (v := y)
  have hns := w.signed_cases (v := ~~~y)
  rw [unsigned_not] at hns
  rw [signedTotal, Bool.toNat_true]
  cases w
  all_goals
    simp only [Width.bits, Nat.reduceSub, Nat.reducePow, Int.reducePow] at hy hys hns
    omega

/-- The carry of a difference tells that nothing is borrowed. -/
lemma carry_subtract : (subtract x y w).2.c = true ↔ w.unsigned y ≤ w.unsigned x := by
  have hx : w.unsigned x < 2 ^ w.bits := Width.unsigned_lt
  have hy : w.unsigned y < 2 ^ w.bits := Width.unsigned_lt
  rw [subtract, carry_addWithCarry, total_subtract]
  cases w
  all_goals
    simp only [Width.bits, Width.mask, Nat.reducePow, UInt64.reduceToNat] at hx hy ⊢
    omega

/-- The difference of numbers is zero when they are equal. -/
lemma zero_subtract : (subtract x y w).2.z = true ↔ w.unsigned x = w.unsigned y := by
  have hx : w.unsigned x < 2 ^ w.bits := Width.unsigned_lt
  have hy : w.unsigned y < 2 ^ w.bits := Width.unsigned_lt
  rw [subtract, zero_addWithCarry, ← UInt64.toNat_inj, toNat_addWithCarry, total_subtract]
  cases w
  all_goals
    simp only [Width.bits, Nat.reducePow, UInt64.toNat_zero] at hx hy ⊢
    omega

/-- Where the sign of a difference is wrong, the overflow tells so. -/
lemma less_subtract :
    (subtract x y w).2.n ≠ (subtract x y w).2.v ↔ w.signed x < w.signed y := by
  have hx : w.unsigned x < 2 ^ w.bits := Width.unsigned_lt
  have hy : w.unsigned y < 2 ^ w.bits := Width.unsigned_lt
  have hxs := w.signed_cases (v := x)
  have hys := w.signed_cases (v := y)
  have hrs := w.signed_cases (v := (addWithCarry x (~~~y) true w).1)
  rw [subtract, Ne, Bool.eq_iff_iff, negative_addWithCarry, overflow_addWithCarry, signedTotal_subtract]
  rw [unsigned_addWithCarry, total_subtract] at hrs
  cases w
  all_goals
    simp only [Width.bits, Nat.reduceSub, Nat.reducePow, Int.reducePow] at hx hy hxs hys hrs
    omega

/-- Numbers are equal when their integers are. -/
lemma signed_eq_iff : w.signed x = w.signed y ↔ w.unsigned x = w.unsigned y := by
  have hx : w.unsigned x < 2 ^ w.bits := Width.unsigned_lt
  have hy : w.unsigned y < 2 ^ w.bits := Width.unsigned_lt
  have hxs := w.signed_cases (v := x)
  have hys := w.signed_cases (v := y)
  cases w
  all_goals
    simp only [Width.bits, Nat.reduceSub, Nat.reducePow, Int.reducePow] at hx hy hxs hys
    omega

end Cpu

/-- The condition that tests a relation after a difference. -/
def Ir.CmpOp.cond : Ir.CmpOp → Cpu.Cond
  | .eq => .eq
  | .ne => .ne
  | .ltS => .lt
  | .ltU => .cc
  | .leS => .le
  | .leU => .ls
  | .gtS => .gt
  | .gtU => .hi
  | .geS => .ge
  | .geU => .cs

/-- After a difference, a condition holds when the relation that it tests does. -/
lemma Cpu.holds_subtract (op : Ir.CmpOp) (w : Width) (x y : UInt64) :
    op.cond.holds (subtract x y w).2 = true ↔ op.Relates w x y := by
  have heq := signed_eq_iff (w := w) (x := x) (y := y)
  have hc : (subtract x y w).2.c = decide (w.unsigned y ≤ w.unsigned x) := by
    rw [Bool.eq_iff_iff, decide_eq_true_iff, carry_subtract]
  have hz : (subtract x y w).2.z = decide (w.unsigned x = w.unsigned y) := by
    rw [Bool.eq_iff_iff, decide_eq_true_iff, zero_subtract]
  have hs : ((subtract x y w).2.n == (subtract x y w).2.v) = decide (w.signed y ≤ w.signed x) := by
    rw [Bool.eq_iff_iff, decide_eq_true_iff, beq_iff_eq, ← Int.not_lt, ← less_subtract, Ne, not_not]
  cases op
  case eq | ne | geS | geU =>
    simp only [Ir.CmpOp.cond, Cond.holds, Ir.CmpOp.Relates, hc, hz, hs, ← decide_not, decide_eq_true_iff,
      ne_eq]
  all_goals
    simp only [Ir.CmpOp.cond, Cond.holds, Ir.CmpOp.Relates, bne, hc, hz, hs, ← decide_not, ← Bool.decide_and,
      decide_eq_true_iff]
    omega

end Dynarec
