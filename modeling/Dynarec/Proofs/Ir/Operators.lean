import Dynarec.Proofs.Ir.Eval
import Dynarec.Proofs.Word.Numbers

/-!
# Operators on numbers

The operators of the intermediate code are given on words. Here is what they compute on the numbers that the
low parts of their operands denote: sums, products, shifts and quotients modulo the power of two of the
width, and relations between natural numbers or integers. A second form of every operator does the same
steps, but stops where a step would not be defined on machine words; it never stops.
-/

namespace Dynarec.Ir

open Bits (bit)

/-! ### What the operators compute -/

/-- The number that a binary operator gives, before it is cut to the width. A quotient by zero is zero. -/
def BinOp.number (op : BinOp) (w : Width) (a b : UInt64) : Int :=
  let x := w.unsigned a
  let y := w.unsigned b
  let amount := y % w.bits
  match op with
  | .add => x + y
  | .sub => x - y
  | .mul => x * y
  | .and => (x &&& y : Nat)
  | .or => (x ||| y : Nat)
  | .xor => (x ^^^ y : Nat)
  | .shl => x * 2 ^ amount
  | .shrU => (x / 2 ^ amount : Nat)
  | .shrS => (w.signed a).fdiv (2 ^ amount)
  | .rotR => (2 ^ (w.bits - amount) * (x % 2 ^ amount) + x / 2 ^ amount : Nat)
  | .divU => (x / y : Nat)
  | .divS => (w.signed a).tdiv (w.signed b)

/-- The relation that a comparison tests. -/
def CmpOp.Relates (op : CmpOp) (w : Width) (a b : UInt64) : Prop :=
  match op with
  | .eq => w.unsigned a = w.unsigned b
  | .ne => w.unsigned a ≠ w.unsigned b
  | .ltS => w.signed a < w.signed b
  | .ltU => w.unsigned a < w.unsigned b
  | .leS => w.signed a ≤ w.signed b
  | .leU => w.unsigned a ≤ w.unsigned b
  | .gtS => w.signed b < w.signed a
  | .gtU => w.unsigned b < w.unsigned a
  | .geS => w.signed b ≤ w.signed a
  | .geU => w.unsigned b ≤ w.unsigned a

/-- The number that `n` bits denote alone or in two's complement. -/
def extended (v : UInt64) (n : Nat) (signed : Bool) : Int :=
  if signed then (v.toNat : Int).bmod (2 ^ n) else (v.toNat % 2 ^ n : Nat)

/-! ### Steps that are not always defined -/

namespace Checked

/-- A difference of counts. -/
def sub (m n : Nat) : Option Nat := if n ≤ m then some (m - n) else none

/-- A word shifted left, by less than its size. -/
def shl (v : UInt64) (n : Nat) : Option UInt64 := if n < 64 then some (v <<< UInt64.ofNat n) else none

/-- A word shifted right, by less than its size. -/
def shr (v : UInt64) (n : Nat) : Option UInt64 := if n < 64 then some (v >>> UInt64.ofNat n) else none

/-- A signed word shifted right, by less than its size. -/
def sar (v : Int64) (n : Nat) : Option Int64 :=
  if n < 64 then some (v >>> (UInt64.ofNat n).toInt64) else none

/-- The predecessor of a word. -/
def pred (v : UInt64) : Option UInt64 := if v = 0 then none else some (v - 1)

/-- A remainder of a count. -/
def mod (m n : Nat) : Option Nat := if n = 0 then none else some (m % n)

/-- A quotient. -/
def div (a b : UInt64) : Option UInt64 := if b = 0 then none else some (a / b)

/-- A signed quotient, which wraps around when the least number is divided by minus one. -/
def sdiv (a b : Int64) : Option Int64 := if b = 0 then none else some (a / b)

/-- A run of ones. -/
def ones (n : Nat) : Option UInt64 := do
  if n < 64 then pred (← shl 1 n) else some 0xffffffffffffffff

/-- The sign extended. -/
def signExtend (v : UInt64) (n : Nat) : Option UInt64 := do
  let shift ← sub 64 n
  return (← sar (← shl v shift).toInt64 shift).toUInt64

/-- The low part as a signed number. -/
def toSigned (v : UInt64) (w : Width) : Option Int64 :=
  (signExtend (v &&& w.mask) w.bits).map UInt64.toInt64

/-- The low bits rotated. -/
def rotateRight (v : UInt64) (size amount : Nat) : Option UInt64 := do
  let v := v &&& (← ones size)
  let amount ← mod amount size
  if amount = 0 then some v
  else return ((← shr v amount) ||| (← shl v (← sub size amount))) &&& (← ones size)

/-- A binary operator on words that are cut to the width, before its result is cut. -/
def whole (op : BinOp) (w : Width) (a b : UInt64) (amount : Nat) : Option UInt64 :=
  match op with
  | .add => some (a + b)
  | .sub => some (a - b)
  | .mul => some (a * b)
  | .and => some (a &&& b)
  | .or => some (a ||| b)
  | .xor => some (a ^^^ b)
  | .shl => shl a amount
  | .shrU => shr a amount
  | .shrS => do return (← sar (← toSigned a w) amount).toUInt64
  | .rotR => rotateRight a w.bits amount
  | .divU => if b = 0 then some 0 else div a b
  | .divS => do
    let x ← toSigned a w
    let y ← toSigned b w
    if y = 0 then some 0 else return (← sdiv x y).toUInt64

/-- A binary operator. -/
def bin (op : BinOp) (w : Width) (lhs rhs : UInt64) : Option UInt64 := do
  let a := lhs &&& w.mask
  let b := rhs &&& w.mask
  let amount ← mod b.toNat w.bits
  (whole op w a b amount).map (· &&& w.mask)

/-- A comparison. -/
def cmp (op : CmpOp) (w : Width) (lhs rhs : UInt64) : Option UInt64 := do
  let a := lhs &&& w.mask
  let b := rhs &&& w.mask
  let x ← toSigned a w
  let y ← toSigned b w
  let holds : Bool := match op with
    | .eq => a == b
    | .ne => a != b
    | .ltS => x < y
    | .ltU => a < b
    | .leS => x ≤ y
    | .leU => a ≤ b
    | .gtS => y < x
    | .gtU => b < a
    | .geS => y ≤ x
    | .geU => b ≤ a
  return holds.toUInt64

/-- An extension. -/
def extend (v : UInt64) (n : Nat) (signed : Bool) : Option UInt64 := do
  let low := v &&& (← ones n)
  if signed then signExtend low n else some low

variable {w : Width} {a b : UInt64} {n : Nat}

lemma ones_eq (n : Nat) : ones n = some (Bits.ones n) := by
  unfold ones Bits.ones
  split
  · next h =>
    have hne : (1 : UInt64) <<< UInt64.ofNat n ≠ 0 := by
      intro h0
      have hbit := congrArg (bit · n) h0
      rw [Bits.bit_shiftLeft h, Bits.bit_zero] at hbit
      simp [h, bit] at hbit
    simp [shl, pred, h, hne]
  · rfl

lemma signExtend_eq (h0 : 0 < n) (hn : n ≤ 64) (v : UInt64) :
    signExtend v n = some (Bits.signExtend v n) := by
  have hshift : 64 - n < 64 := by omega
  simp [signExtend, Bits.signExtend, sub, shl, sar, hn, hshift]

lemma toSigned_eq (v : UInt64) (w : Width) : toSigned v w = some (Ir.toSigned v w) := by
  rw [toSigned, signExtend_eq w.bits_pos w.bits_le]
  rfl

lemma rotateRight_eq (v : UInt64) {size : Nat} (h0 : 0 < size) (hsize : size ≤ 64) (amount : Nat) :
    rotateRight v size amount = some (Bits.rotateRight v size amount) := by
  have hmod := Nat.mod_lt amount h0
  simp only [rotateRight, Bits.rotateRight, ones_eq, mod, if_neg (Nat.ne_of_gt h0)]
  generalize amount % size = r at hmod
  by_cases hr : r = 0
  · simp [hr]
  · have hlow : r < 64 := by omega
    have hhigh : size - r < 64 := by omega
    simp [hr, shr, shl, sub, hlow, hhigh, Nat.le_of_lt hmod]

/-- No step of a binary operator is undefined. -/
lemma bin_eq (op : BinOp) (w : Width) (a b : UInt64) : bin op w a b = some (op.eval w a b) := by
  have hpos := w.bits_pos
  have hlt : (b &&& w.mask).toNat % w.bits < 64 := Nat.lt_of_lt_of_le (Nat.mod_lt _ hpos) w.bits_le
  have hcut : ∀ {a b amount r}, whole op w a b amount = some r →
      (whole op w a b amount).map (· &&& w.mask) = some (r &&& w.mask) := fun h => by rw [h]; rfl
  simp only [bin, BinOp.eval, mod, if_neg (Nat.ne_of_gt hpos), Option.bind_eq_bind, Option.bind_some]
  generalize a &&& w.mask = a, b &&& w.mask = b at hlt
  generalize b.toNat % w.bits = amount at hlt
  cases op with
  | add | sub | mul | and | or | xor => rfl
  | shl => exact hcut (if_pos hlt)
  | shrU => exact hcut (if_pos hlt)
  | shrS => exact hcut (by simp [whole, sar, toSigned_eq, hlt])
  | rotR => exact hcut (rotateRight_eq a hpos w.bits_le amount)
  | divU =>
    apply hcut
    by_cases hb : b = 0
    · simp [whole, hb]
    · simp [whole, div, hb]
  | divS =>
    apply hcut
    have hzero : (0 : Int64).toUInt64 = 0 := rfl
    by_cases hb : Ir.toSigned b w = 0
    · simp [whole, toSigned_eq, hb, hzero]
    · simp [whole, toSigned_eq, sdiv, hb]

/-- No step of a comparison is undefined. -/
lemma cmp_eq (op : CmpOp) (w : Width) (a b : UInt64) : cmp op w a b = some (op.eval w a b) := by
  simp only [cmp, toSigned_eq]
  cases op <;> rfl

/-- No step of an extension of at least one bit is undefined. -/
lemma extend_eq (h0 : 0 < n) (hn : n ≤ 64) (v : UInt64) (signed : Bool) :
    extend v n signed = some (Ir.extend v n signed) := by
  cases signed <;> simp [extend, Ir.extend, ones_eq, signExtend_eq h0 hn]

end Checked

/-! ### Binary operators -/

section
variable {w : Width} {a b u v : UInt64} {n : Nat}

/-- The power of two of a width divides that of words. -/
lemma two_pow_bits_dvd (w : Width) : 2 ^ w.bits ∣ 2 ^ 64 := Nat.pow_dvd_pow 2 w.bits_le

/-- The low part of a word that is a number modulo that of words. -/
lemma unsigned_of_toNat {m : Nat} (h : v.toNat = m % 2 ^ 64) : w.unsigned v = m % 2 ^ w.bits := by
  rw [Width.unsigned, h, Nat.mod_mod_of_dvd _ (two_pow_bits_dvd w)]

lemma natCast_emod (m : Nat) : ((m % 2 ^ w.bits : Nat) : Int) = (m : Int) % 2 ^ w.bits := by simp

/-- Wrapping around at the size of words does not count at a width. -/
lemma emod_bmod (z : Int) : z.bmod (2 ^ 64) % 2 ^ w.bits = z % 2 ^ w.bits := by
  rw [Int.bmod_def]
  cases w
  all_goals
    simp only [Width.bits, Nat.reducePow, Int.reducePow, Int.cast_ofNat_Int]
    omega

/-- The low part of a word goes by the integer that the word denotes. -/
lemma unsigned_eq_toInt (v : UInt64) : (w.unsigned v : Int) = v.toInt64.toInt % 2 ^ w.bits := by
  have hword : v.toInt64.toInt = (v.toNat : Int).bmod (2 ^ 64) := BitVec.toInt_eq_toNat_bmod _
  rw [hword, emod_bmod, Width.unsigned, natCast_emod]

/-- The signed number of a low part. -/
lemma toInt_toSigned (v : UInt64) : (toSigned v w).toInt = w.signed v := by
  rw [toSigned, Bits.toInt_signExtend w.bits_pos w.bits_le]
  exact w.signed_and_mask

/-- A word shifted left. -/
lemma toNat_shl (h : n < 64) (v : UInt64) : (v <<< UInt64.ofNat n).toNat = v.toNat * 2 ^ n % 2 ^ 64 := by
  have hn : n % 18446744073709551616 % 64 = n := by omega
  simp [UInt64.toNat_shiftLeft, hn, Nat.shiftLeft_eq]

/-- A word shifted right. -/
lemma toNat_shr (h : n < 64) (v : UInt64) : (v >>> UInt64.ofNat n).toNat = v.toNat / 2 ^ n := by
  have hn : n % 18446744073709551616 % 64 = n := by omega
  simp [UInt64.toNat_shiftRight, hn, Nat.shiftRight_eq_div_pow]

/-- A signed word shifted right. -/
lemma toInt_sar (h : n < 64) (v : Int64) :
    (v >>> (UInt64.ofNat n).toInt64).toInt = v.toInt.fdiv (2 ^ n) := by
  have hbits := Bits.toBitVec_shiftRight_toInt64 (v := v.toUInt64) h
  show ((v >>> (UInt64.ofNat n).toInt64).toUInt64).toBitVec.toInt = _
  rw [show v.toUInt64.toInt64 = v from rfl] at hbits
  have hpow : ((2 ^ n : Nat) : Int) = 2 ^ n := by simp
  have hpos : (0 : Int) ≤ 2 ^ n := hpow ▸ Int.natCast_nonneg _
  rw [hbits, BitVec.toInt_sshiftRight, Int.shiftRight_eq_div_pow, hpow, Int.fdiv_eq_ediv_of_nonneg _ hpos]
  rfl

/-- A rotation moves the low bits above the others. -/
lemma testBit_rotated {x bits : Nat} (hx : x < 2 ^ bits) (hn : n < bits) (i : Nat) :
    (2 ^ (bits - n) * (x % 2 ^ n) + x / 2 ^ n).testBit i =
      (decide (i < bits) && x.testBit ((i + n) % bits)) := by
  have hlow : x / 2 ^ n < 2 ^ (bits - n) := by
    rw [Nat.div_lt_iff_lt_mul (Nat.two_pow_pos n), ← Nat.pow_add, Nat.sub_add_cancel (Nat.le_of_lt hn)]
    exact hx
  rw [Nat.testBit_two_pow_mul_add _ hlow, Nat.testBit_div_two_pow, Nat.testBit_mod_two_pow]
  by_cases hi : i < bits - n
  · have hin : i < bits := by omega
    rw [Nat.mod_eq_of_lt (show i + n < bits by omega)]
    simp [hi, hin]
  · by_cases hin : i < bits
    · have hwrap : (i + n) % bits = i - (bits - n) := by
        rw [Nat.mod_eq_sub_mod (by omega), Nat.mod_eq_of_lt (by omega)]
        omega
      simp [hi, hin, hwrap, show i - (bits - n) < n by omega]
    · simp [hi, hin, show ¬ i - (bits - n) < n by omega]

/-- A rotation of the low part. -/
lemma unsigned_rotateRight (h : n < w.bits) (v : UInt64) :
    w.unsigned (Bits.rotateRight (v &&& w.mask) w.bits n) =
      2 ^ (w.bits - n) * (w.unsigned v % 2 ^ n) + w.unsigned v / 2 ^ n := by
  apply Nat.eq_of_testBit_eq
  intro i
  rw [testBit_rotated Width.unsigned_lt h, Width.unsigned, Nat.testBit_mod_two_pow, ← Bits.bit_eq_testBit,
    Bits.bit_rotateRight w.bits_pos w.bits_le, Nat.mod_eq_of_lt h, ← Width.toNat_and_mask, ← Bits.bit_eq_testBit,
    ← Bool.and_assoc, Bool.and_self]

lemma BinOp.eval_sub : ((BinOp.eval .sub w a b).toNat : Int) = BinOp.number .sub w a b % 2 ^ w.bits := by
  have hx : w.unsigned a < 2 ^ w.bits := Width.unsigned_lt
  have hy : w.unsigned b < 2 ^ w.bits := Width.unsigned_lt
  simp only [eval, number, Width.toNat_and_mask, Width.unsigned, UInt64.toNat_sub]
  rw [← Width.unsigned, ← Width.unsigned]
  cases w
  all_goals
    simp only [Width.bits, Nat.reducePow, Int.reducePow] at hx hy ⊢
    omega

/-- What a binary operator gives is its number, cut to the width. -/
lemma BinOp.toNat_eval (op : BinOp) (w : Width) (a b : UInt64) :
    ((op.eval w a b).toNat : Int) = op.number w a b % 2 ^ w.bits := by
  have hpos := w.bits_pos
  have hlt : w.unsigned b % w.bits < w.bits := Nat.mod_lt _ hpos
  have h64 : w.unsigned b % w.bits < 64 := Nat.lt_of_lt_of_le hlt w.bits_le
  cases op with
  | add =>
    rw [eval, Width.toNat_and_mask, unsigned_of_toNat (UInt64.toNat_add ..), natCast_emod]
    simp only [number, Width.toNat_and_mask, Int.natCast_add]
  | sub => exact eval_sub
  | mul =>
    rw [eval, Width.toNat_and_mask, unsigned_of_toNat (UInt64.toNat_mul ..), natCast_emod]
    simp only [number, Width.toNat_and_mask, Int.natCast_mul]
  | and =>
    rw [eval, Width.toNat_and_mask, Width.unsigned, UInt64.toNat_and, natCast_emod]
    simp only [number, Width.toNat_and_mask]
  | or =>
    rw [eval, Width.toNat_and_mask, Width.unsigned, UInt64.toNat_or, natCast_emod]
    simp only [number, Width.toNat_and_mask]
  | xor =>
    rw [eval, Width.toNat_and_mask, Width.unsigned, UInt64.toNat_xor, natCast_emod]
    simp only [number, Width.toNat_and_mask]
  | shl =>
    simp only [eval, number, Width.toNat_and_mask]
    rw [unsigned_of_toNat (toNat_shl h64 _), natCast_emod, Width.toNat_and_mask]
    simp
  | shrU =>
    simp only [eval, number, Width.toNat_and_mask]
    rw [Width.unsigned, toNat_shr h64, natCast_emod, Width.toNat_and_mask]
  | shrS =>
    simp only [eval, number, Width.toNat_and_mask]
    rw [unsigned_eq_toInt, Int64.toInt64_toUInt64, toInt_sar h64, toInt_toSigned, Width.signed_and_mask]
  | rotR =>
    simp only [eval, number, Width.toNat_and_mask]
    rw [← unsigned_rotateRight hlt, Int.emod_eq_of_lt (Int.natCast_nonneg _)]
    exact_mod_cast Width.unsigned_lt
  | divU =>
    simp only [eval, number, Width.toNat_and_mask]
    rw [Width.unsigned, UInt64.toNat_div, natCast_emod, Width.toNat_and_mask, Width.toNat_and_mask]
  | divS =>
    simp only [eval, number, Width.toNat_and_mask]
    rw [unsigned_eq_toInt, Int64.toInt64_toUInt64, Int64.toInt_div, toInt_toSigned, toInt_toSigned,
      Width.signed_and_mask, Width.signed_and_mask]
    exact emod_bmod _

/-! ### Comparisons and extensions -/

lemma CmpOp.holds_iff (op : CmpOp) (w : Width) (a b : UInt64) :
    op.holds w a b = true ↔ op.Relates w a b := by
  cases op with
  | eq => rw [holds, beq_iff_eq, Width.and_mask_eq_iff, Relates]
  | ne => rw [holds, bne_iff_ne, Ne, Width.and_mask_eq_iff, Relates]
  | ltU | gtU =>
    rw [holds, decide_eq_true_iff, UInt64.lt_iff_toNat_lt, Width.toNat_and_mask, Width.toNat_and_mask,
      Relates]
  | leU | geU =>
    rw [holds, decide_eq_true_iff, UInt64.le_iff_toNat_le, Width.toNat_and_mask, Width.toNat_and_mask,
      Relates]
  | ltS | gtS =>
    rw [holds, decide_eq_true_iff, Int64.lt_iff_toInt_lt, toInt_toSigned, toInt_toSigned,
      Width.signed_and_mask, Width.signed_and_mask, Relates]
  | leS | geS =>
    rw [holds, decide_eq_true_iff, Int64.le_iff_toInt_le, toInt_toSigned, toInt_toSigned,
      Width.signed_and_mask, Width.signed_and_mask, Relates]

/-- What an extension gives is the number of the low bits, cut to the size of words. -/
lemma toNat_extend (h0 : 0 < n) (hn : n ≤ 64) (v : UInt64) (signed : Bool) :
    ((extend v n signed).toNat : Int) = extended v n signed % 2 ^ 64 := by
  have hlt : v.toNat % 2 ^ n < 2 ^ 64 :=
    Nat.lt_of_lt_of_le (Nat.mod_lt _ (Nat.two_pow_pos n)) (Nat.pow_le_pow_right (by decide) hn)
  cases signed with
  | false =>
    show ((v &&& Bits.ones n).toNat : Int) = ((v.toNat % 2 ^ n : Nat) : Int) % 2 ^ 64
    rw [Bits.toNat_and_ones hn]
    omega
  | true =>
    have hint := Bits.toInt_signExtend (v := v &&& Bits.ones n) h0 hn
    rw [Bits.toNat_and_ones hn, Int.natCast_emod, Int.emod_bmod] at hint
    have hword := unsigned_eq_toInt (w := .w64) (Bits.signExtend (v &&& Bits.ones n) n)
    rwa [hint, Width.unsigned, show Width.w64.bits = 64 from rfl,
      Nat.mod_eq_of_lt (UInt64.toNat_lt _)] at hword

end

/-! ### The operators -/

/-- A binary operator reads the low parts of its operands, gives a number of the width, and computes what
its number says by steps that are all defined. -/
structure BinOp.Exact (op : BinOp) (w : Width) (a b : UInt64) : Prop where
  low : ∀ u v, w.unsigned u = w.unsigned a → w.unsigned v = w.unsigned b →
    op.eval w u v = op.eval w a b
  bounded : (op.eval w a b).toNat < 2 ^ w.bits
  value : ((op.eval w a b).toNat : Int) = op.number w a b % 2 ^ w.bits
  defined : Checked.bin op w a b = some (op.eval w a b)

/-- A comparison reads the low parts of its operands and is 1 when its relation holds of their numbers and 0
otherwise, by steps that are all defined. -/
structure CmpOp.Exact (op : CmpOp) (w : Width) (a b : UInt64) : Prop where
  low : ∀ u v, w.unsigned u = w.unsigned a → w.unsigned v = w.unsigned b →
    op.eval w u v = op.eval w a b
  holds : op.eval w a b = 1 ↔ op.Relates w a b
  fails : op.eval w a b = 0 ↔ ¬ op.Relates w a b
  defined : Checked.cmp op w a b = some (op.eval w a b)

lemma BinOp.exact (op : BinOp) (w : Width) (a b : UInt64) : op.Exact w a b where
  low u v hu hv := by simp only [eval, Width.and_mask_eq_iff.2 hu, Width.and_mask_eq_iff.2 hv]
  bounded := by
    simp only [eval, Width.toNat_and_mask]
    exact Width.unsigned_lt
  value := op.toNat_eval w a b
  defined := Checked.bin_eq op w a b

lemma CmpOp.exact (op : CmpOp) (w : Width) (a b : UInt64) : op.Exact w a b where
  low u v hu hv := by
    simp only [eval, CmpOp.holds, Width.and_mask_eq_iff.2 hu, Width.and_mask_eq_iff.2 hv]
  holds := by
    rw [← op.holds_iff, eval]
    cases op.holds w a b <;> decide
  fails := by
    rw [← op.holds_iff, eval]
    cases op.holds w a b <;> decide
  defined := Checked.cmp_eq op w a b

/-- The least number of a width, divided by minus one, is itself. -/
lemma eval_divS_least {w : Width} {a b : UInt64} (ha : w.signed a = -2 ^ (w.bits - 1))
    (hb : w.signed b = -1) : BinOp.eval .divS w a b = w.signBit := by
  have hvalue := BinOp.toNat_eval .divS w a b
  rw [BinOp.number, ha, hb, Int.tdiv_neg, Int.tdiv_one, Int.neg_neg] at hvalue
  apply UInt64.toNat_inj.1
  apply Int.natCast_inj.1
  rw [hvalue]
  cases w <;> rfl

/-- The operators compute their mathematical meaning at both widths, for all words: binary operators modulo
the power of two of the width, with zero as every quotient by zero and the least number as its own quotient
by minus one, comparisons as relations of the numbers that the low parts denote, and extensions of 1 to 64
bits as the number of these bits. -/
theorem operators_exact :
    (∀ (op : BinOp) (w : Width) (a b : UInt64), op.Exact w a b) ∧
    (∀ (w : Width) (a b : UInt64), w.unsigned b = 0 →
      BinOp.eval .divU w a b = 0 ∧ BinOp.eval .divS w a b = 0) ∧
    (∀ (w : Width) (a b : UInt64), w.signed a = -2 ^ (w.bits - 1) → w.signed b = -1 →
      BinOp.eval .divS w a b = w.signBit) ∧
    (∀ (op : CmpOp) (w : Width) (a b : UInt64), op.Exact w a b) ∧
    ∀ (v : UInt64) (n : Nat) (signed : Bool), 1 ≤ n → n ≤ 64 →
      ((extend v n signed).toNat : Int) = extended v n signed % 2 ^ 64 ∧
        Checked.extend v n signed = some (extend v n signed) := by
  refine ⟨BinOp.exact, fun w a b hb => ⟨?_, ?_⟩, fun _ _ _ => eval_divS_least, CmpOp.exact,
    fun v n signed h0 hn => ⟨toNat_extend h0 hn v signed, Checked.extend_eq h0 hn v signed⟩⟩
  · have hvalue := BinOp.toNat_eval .divU w a b
    rw [BinOp.number, hb, Nat.div_zero] at hvalue
    simpa [← UInt64.toNat_inj] using hvalue
  · have hvalue := BinOp.toNat_eval .divS w a b
    rw [BinOp.number, w.signed_eq_bmod, w.signed_eq_bmod, hb] at hvalue
    simpa [← UInt64.toNat_inj] using hvalue

/-- Words whose high bits do not count, at the corners of the division and of the extension. -/
theorem operators_exact_corners :
    (Width.w32.unsigned 0x500000000 = 0 ∧ BinOp.eval .divU .w32 7 0x500000000 = 0 ∧
      BinOp.eval .divS .w32 7 0x500000000 = 0) ∧
    (Width.w32.signed 0x980000000 = -2 ^ 31 ∧ Width.w32.signed 0xffffffff = -1 ∧
      BinOp.eval .divS .w32 0x980000000 0xffffffff = 0x80000000) ∧
    ((extend 0x1ff 1 true).toNat : Int) = extended 0x1ff 1 true % 2 ^ 64 :=
  ⟨⟨by decide, operators_exact.2.1 .w32 7 0x500000000 (by decide)⟩,
    ⟨by decide, by decide, operators_exact.2.2.1 .w32 0x980000000 0xffffffff (by decide) (by decide)⟩,
    (operators_exact.2.2.2.2 0x1ff 1 true (by decide) (by decide)).1⟩

end Dynarec.Ir
