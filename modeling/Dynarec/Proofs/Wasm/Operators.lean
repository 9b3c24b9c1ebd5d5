import Dynarec.Proofs.Ir.Eval
import Dynarec.Proofs.Wasm.Execution
import Dynarec.Wasm.Codegen

/-!
# Operators of emitted code

An operator is compiled to the instruction of its width, which takes the low parts of its operands. Its
result, extended with zeros, is what the operator gives for the whole words.
-/

namespace Dynarec

open Bits (bit)

namespace Width

variable (w : Width) (v : UInt64)

/-- The low part of a word at a width. -/
def low : BitVec w.bits := v.toBitVec.setWidth w.bits

/-- A number of a width as a word, extended with zeros. -/
def word (b : BitVec w.bits) : UInt64 := .ofBitVec (b.setWidth 64)

variable {w v} {b : BitVec w.bits} {i : Nat}

lemma getLsbD_low : (w.low v).getLsbD i = (decide (i < w.bits) && bit v i) := BitVec.getLsbD_setWidth ..

lemma bit_word (hi : i < 64) : bit (w.word b) i = b.getLsbD i := Bits.bit_ofBitVec hi

/-- Cutting a word to a width keeps its low part. -/
lemma word_low : w.word (w.low v) = v &&& w.mask := by
  apply Bits.eq_of_bit
  intro i hi
  rw [bit_word hi, getLsbD_low, Bits.bit_and, Bits.bit_mask, Bool.and_comm]

lemma low_and_mask : w.low (v &&& w.mask) = w.low v := by
  apply BitVec.eq_of_getLsbD_eq
  intro i hi
  rw [getLsbD_low, getLsbD_low, Bits.bit_and, Bits.bit_mask]
  simp [hi]

/-- A result that is the low part of a word is the word cut to the width. -/
lemma word_eq (h : w.low v = b) : w.word b = v &&& w.mask := by rw [← h, word_low]

section
variable {x y : UInt64}

lemma low_add : w.low ((x &&& w.mask) + (y &&& w.mask)) = w.low x + w.low y := by
  rw [← low_and_mask (v := x), ← low_and_mask (v := y)]
  exact BitVec.setWidth_add _ _ w.bits_le

lemma low_sub : w.low ((x &&& w.mask) - (y &&& w.mask)) = w.low x - w.low y := by
  rw [← low_and_mask (v := x), ← low_and_mask (v := y), BitVec.sub_eq_add_neg]
  show BitVec.setWidth w.bits ((x &&& w.mask).toBitVec - (y &&& w.mask).toBitVec) = _
  rw [BitVec.sub_eq_add_neg, BitVec.setWidth_add _ _ w.bits_le, BitVec.setWidth_neg_of_le w.bits_le]
  rfl

lemma low_mul : w.low ((x &&& w.mask) * (y &&& w.mask)) = w.low x * w.low y := by
  rw [← low_and_mask (v := x), ← low_and_mask (v := y)]
  exact BitVec.setWidth_mul _ _ w.bits_le

end

lemma toNat_low : (w.low v).toNat = (v &&& w.mask).toNat := by
  rw [← word_low]
  show _ = (BitVec.setWidth 64 _).toNat
  rw [BitVec.toNat_setWidth_of_le w.bits_le]

lemma low_eq_iff {u : UInt64} : w.low u = w.low v ↔ u &&& w.mask = v &&& w.mask := by
  rw [← word_low, ← word_low]
  refine ⟨congrArg _, fun h => ?_⟩
  apply BitVec.eq_of_toNat_eq
  rw [toNat_low, toNat_low, ← word_low, ← word_low, h]

/-- The low part of the mask has all bits set. -/
lemma low_mask : w.low w.mask = BitVec.allOnes w.bits := by cases w <;> rfl

lemma low_eq_zero_iff : w.low v = 0 ↔ v &&& w.mask = 0 := by
  have hzero : w.low 0 = 0 := by cases w <;> rfl
  rw [← hzero, low_eq_iff, UInt64.zero_and]

/-- A word has the low part with all bits set when it is the mask, cut to the width. -/
lemma low_eq_allOnes_iff : w.low v = BitVec.allOnes w.bits ↔ v &&& w.mask = w.mask := by
  rw [← low_mask, low_eq_iff, UInt64.and_self]

/-- A signed quotient by the number with all bits set is the negation. -/
lemma sdiv_allOnes (b : BitVec w.bits) : b.sdiv (BitVec.allOnes w.bits) = -b := by
  apply BitVec.eq_of_toInt_eq
  rw [BitVec.toInt_sdiv, BitVec.toInt_allOnes, if_pos w.bits_pos, BitVec.toInt_neg, Int.tdiv_neg, Int.tdiv_one]

lemma word_zero : w.word 0 = 0 := by cases w <;> rfl

/-- A signed number is that of the low part. -/
lemma toInt_toSigned : (Ir.toSigned v w).toInt = (w.low v).toInt := by
  have hbits : (Ir.toSigned v w).toBitVec = (w.low v).signExtend 64 := by
    apply BitVec.eq_of_getLsbD_eq
    intro i hi
    have hlast : w.bits - 1 < w.bits := Nat.sub_lt w.bits_pos Nat.one_pos
    show bit (Ir.toSigned v w).toUInt64 i = _
    rw [Ir.BinOp.bit_toSigned hi, BitVec.getLsbD_signExtend, BitVec.msb_eq_getLsbD_last, getLsbD_low,
      getLsbD_low]
    by_cases hlt : i < w.bits
    · simp [hi, hlt, Nat.min_eq_left (Nat.le_sub_one_of_lt hlt)]
    · simp [hi, hlt, hlast, Nat.min_eq_right (show w.bits - 1 ≤ i by omega)]
  show (Ir.toSigned v w).toBitVec.toInt = _
  rw [hbits, BitVec.toInt_signExtend_of_le w.bits_le]

end Width

namespace Wasm.Codegen

open Width (low word)

variable {w : Width} {a b : UInt64}

/-- A comparison of the code is the one of the operator. -/
lemma relOp_holds (op : Ir.CmpOp) : (relOp op).holds (w.low a) (w.low b) = op.holds w a b := by
  have heq : (w.low a == w.low b) = (a &&& w.mask == b &&& w.mask) := by
    rw [Bool.eq_iff_iff, beq_iff_eq, beq_iff_eq, Width.low_eq_iff]
  have hult : ∀ a b, (w.low a).ult (w.low b) = decide (a &&& w.mask < b &&& w.mask) := by
    intro a b
    rw [BitVec.ult, Width.toNat_low, Width.toNat_low]
    rfl
  have hule : ∀ a b, (w.low a).ule (w.low b) = decide (a &&& w.mask ≤ b &&& w.mask) := by
    intro a b
    rw [BitVec.ule, Width.toNat_low, Width.toNat_low]
    rfl
  have hslt : ∀ a b, (w.low a).slt (w.low b) =
      decide (Ir.toSigned (a &&& w.mask) w < Ir.toSigned (b &&& w.mask) w) := by
    intro a b
    rw [BitVec.slt, decide_eq_decide, Int64.lt_iff_toInt_lt, Width.toInt_toSigned, Width.toInt_toSigned,
      Width.low_and_mask, Width.low_and_mask]
  have hsle : ∀ a b, (w.low a).sle (w.low b) =
      decide (Ir.toSigned (a &&& w.mask) w ≤ Ir.toSigned (b &&& w.mask) w) := by
    intro a b
    rw [BitVec.sle, decide_eq_decide, Int64.le_iff_toInt_le, Width.toInt_toSigned, Width.toInt_toSigned,
      Width.low_and_mask, Width.low_and_mask]
  cases op with
  | eq => exact heq
  | ne => exact congrArg not heq
  | ltS => exact hslt a b
  | ltU => exact hult a b
  | leS => exact hsle a b
  | leU => exact hule a b
  | gtS => exact hslt b a
  | gtU => exact hult b a
  | geS => exact hsle b a
  | geU => exact hule b a

/-- The operators that shift. -/
def IsShift (op : Ir.BinOp) : Prop := op = .shl ∨ op = .shrU ∨ op = .shrS ∨ op = .rotR

/-- A shift by a word is one by its low part, modulo the width. -/
lemma eval_shift {op : Ir.BinOp} (h : IsShift op) :
    op.eval w a b = op.eval w a (UInt64.ofNat ((w.low b).toNat % w.bits)) := by
  rw [Width.toNat_low]
  have hamount := Ir.shift_amount (w := w) (Nat.mod_lt (b &&& w.mask).toNat w.bits_pos)
  rcases h with rfl | rfl | rfl | rfl
  all_goals simp only [Ir.BinOp.eval, hamount]

/-! Operators on the low parts, bit by bit. -/

section Bitwise

variable {n : Nat}

lemma word_and : w.word (w.low a &&& w.low b) = Ir.BinOp.eval .and w a b := by
  apply Bits.eq_of_bit
  intro i hi
  rw [Width.bit_word hi, BitVec.getLsbD_and, Width.getLsbD_low, Width.getLsbD_low, Ir.BinOp.bit_and]
  cases decide (i < w.bits) <;> simp

lemma word_or : w.word (w.low a ||| w.low b) = Ir.BinOp.eval .or w a b := by
  apply Bits.eq_of_bit
  intro i hi
  rw [Width.bit_word hi, BitVec.getLsbD_or, Width.getLsbD_low, Width.getLsbD_low, Ir.BinOp.bit_or]
  cases decide (i < w.bits) <;> simp

lemma word_xor : w.word (w.low a ^^^ w.low b) = Ir.BinOp.eval .xor w a b := by
  apply Bits.eq_of_bit
  intro i hi
  rw [Width.bit_word hi, BitVec.getLsbD_xor, Width.getLsbD_low, Width.getLsbD_low, Ir.BinOp.bit_xor]
  cases decide (i < w.bits) <;> simp

lemma word_shl (hn : n < w.bits) :
    w.word (w.low a <<< n) = Ir.BinOp.eval .shl w a (UInt64.ofNat n) := by
  apply Bits.eq_of_bit
  intro i hi
  rw [Width.bit_word hi, BitVec.getLsbD_shiftLeft, Width.getLsbD_low, Ir.BinOp.bit_shl hn]
  by_cases hw : i < w.bits
  · have hsub : i - n < w.bits := by omega
    by_cases hni : n ≤ i <;> simp [hw, hni, hsub]
  · simp [hw]

lemma word_shrU (hn : n < w.bits) :
    w.word (w.low a >>> n) = Ir.BinOp.eval .shrU w a (UInt64.ofNat n) := by
  apply Bits.eq_of_bit
  intro i hi
  rw [Width.bit_word hi, BitVec.getLsbD_ushiftRight, Width.getLsbD_low, Ir.BinOp.bit_shrU hn]

/-- From the last bit on the sign is repeated. -/
lemma word_shrS (hn : n < w.bits) :
    w.word ((w.low a).sshiftRight n) = Ir.BinOp.eval .shrS w a (UInt64.ofNat n) := by
  have hlast : w.bits - 1 < w.bits := Nat.sub_lt w.bits_pos Nat.one_pos
  apply Bits.eq_of_bit
  intro i hi
  rw [Width.bit_word hi, BitVec.getLsbD_sshiftRight, BitVec.msb_eq_getLsbD_last, Width.getLsbD_low,
    Width.getLsbD_low, Ir.BinOp.bit_shrS hn]
  by_cases hw : i < w.bits
  · by_cases hni : n + i < w.bits
    · simp [hw, hni, Nat.min_eq_left (Nat.le_sub_one_of_lt hni)]
    · simp [hw, hni, hlast, Nat.min_eq_right (show w.bits - 1 ≤ n + i by omega)]
  · simp [hw]

/-- Bits that leave the low end come back at the high end. -/
lemma word_rotR (hn : n < w.bits) :
    w.word ((w.low a).rotateRight n) = Ir.BinOp.eval .rotR w a (UInt64.ofNat n) := by
  apply Bits.eq_of_bit
  intro i hi
  rw [Width.bit_word hi, BitVec.getLsbD_rotateRight, Width.getLsbD_low, Width.getLsbD_low,
    Ir.BinOp.bit_rotR hn, Nat.mod_eq_of_lt hn]
  by_cases hw : i < w.bits
  · by_cases hin : i < w.bits - n
    · rw [Nat.mod_eq_of_lt (show i + n < w.bits by omega), Nat.add_comm i n]
      simp [hw, hin, show n + i < w.bits by omega]
    · rw [Nat.mod_eq_sub_mod (show w.bits ≤ i + n by omega),
        Nat.mod_eq_of_lt (show i + n - w.bits < w.bits by omega),
        show i - (w.bits - n) = i + n - w.bits by omega]
      simp [hw, hin, show i + n - w.bits < w.bits by omega]
  · simp [hw, show ¬ i < w.bits - n by omega]

end Bitwise

/-- An operator that does not divide is the one of the code, on the low parts. -/
lemma binOp_eval {op : Ir.BinOp} (h : op ≠ .divU ∧ op ≠ .divS) :
    ∃ r, (binOp op).eval (w.low a) (w.low b) = some r ∧ w.word r = op.eval w a b := by
  have hlt : (w.low b).toNat % w.bits < w.bits := Nat.mod_lt _ w.bits_pos
  cases op with
  | add => exact ⟨_, rfl, Width.word_eq Width.low_add⟩
  | sub => exact ⟨_, rfl, Width.word_eq Width.low_sub⟩
  | mul => exact ⟨_, rfl, Width.word_eq Width.low_mul⟩
  | and => exact ⟨_, rfl, word_and⟩
  | or => exact ⟨_, rfl, word_or⟩
  | xor => exact ⟨_, rfl, word_xor⟩
  | shl => exact ⟨_, rfl, (word_shl hlt).trans (eval_shift (.inl rfl)).symm⟩
  | shrU => exact ⟨_, rfl, (word_shrU hlt).trans (eval_shift (.inr (.inl rfl))).symm⟩
  | shrS => exact ⟨_, rfl, (word_shrS hlt).trans (eval_shift (.inr (.inr (.inl rfl)))).symm⟩
  | rotR => exact ⟨_, rfl, (word_rotR hlt).trans (eval_shift (.inr (.inr (.inr rfl)))).symm⟩
  | divU => exact absurd rfl h.1
  | divS => exact absurd rfl h.2

/-- A quotient without a sign is that of the low parts. -/
lemma divU_eval : Ir.BinOp.eval .divU w a b = w.word ((w.low a).udiv (w.low b)) := by
  rw [Ir.BinOp.eval, ← Width.word_low]
  congr 1
  apply BitVec.eq_of_toNat_eq
  have hle : (a &&& w.mask).toNat / (b &&& w.mask).toNat ≤ (w.low a).toNat :=
    Width.toNat_low (w := w) ▸ Nat.div_le_self _ _
  show (BitVec.setWidth w.bits _).toNat = _
  rw [BitVec.toNat_setWidth, BitVec.udiv_eq, BitVec.toNat_udiv, Width.toNat_low, Width.toNat_low]
  exact Nat.mod_eq_of_lt (Nat.lt_of_le_of_lt hle (w.low a).isLt)

/-- A signed quotient is that of the low parts. -/
lemma divS_eval : Ir.BinOp.eval .divS w a b = w.word ((w.low a).sdiv (w.low b)) := by
  have hdvd : 2 ^ w.bits ∣ 2 ^ 64 := Nat.pow_dvd_pow 2 w.bits_le
  rw [Ir.BinOp.eval, ← Width.word_low]
  congr 1
  apply BitVec.eq_of_toInt_eq
  generalize hx : Ir.toSigned (a &&& w.mask) w = x
  generalize hy : Ir.toSigned (b &&& w.mask) w = y
  have hx' : x.toInt = (w.low a).toInt := by rw [← hx, Width.toInt_toSigned, Width.low_and_mask]
  have hy' : y.toInt = (w.low b).toInt := by rw [← hy, Width.toInt_toSigned, Width.low_and_mask]
  calc (w.low (x / y).toUInt64).toInt
      = ((x / y).toUInt64.toBitVec.toNat : Int).bmod (2 ^ w.bits) := BitVec.toInt_setWidth _
    _ = (x / y).toInt.bmod (2 ^ w.bits) := by
      rw [← Int.bmod_bmod_of_dvd hdvd, ← BitVec.toInt_eq_toNat_bmod]
      rfl
    _ = (x.toInt.tdiv y.toInt).bmod (2 ^ w.bits) := by
      rw [Int64.toInt_div, Int.bmod_bmod_of_dvd hdvd]
    _ = ((w.low a).sdiv (w.low b)).toInt := by rw [BitVec.toInt_sdiv, hx', hy']

end Wasm.Codegen

/-! ### Stacks -/

namespace Wasm

/-- A number of a width on the stack. -/
def Value.ofWidth (w : Width) (b : BitVec w.bits) : Value :=
  match w with
  | .w32 => .i32 (.ofBitVec b)
  | .w64 => .i64 (.ofBitVec b)

namespace Steps

variable {ε H : Type} {env : Environment ε H} {s s' : List Value} {a a' : Activation H} {w : Width} {v : UInt64}

lemma cut : Steps env (Codegen.cut w) (.i64 v :: s) a (.i64 (v &&& w.mask) :: s) a := by
  cases w with
  | w32 => exact Steps.i64Const.cons (.bin64 rfl)
  | w64 =>
    rw [Width.and_mask_w64]
    exact .nil

lemma narrow : Steps env (Codegen.narrow w) (.i64 v :: s) a (.ofWidth w (w.low v) :: s) a := by
  cases w with
  | w32 => exact .wrap
  | w64 =>
    have hlow : Value.ofWidth .w64 (Width.w64.low v) = .i64 v :=
      congrArg Value.i64 (UInt64.toBitVec_inj.1 (BitVec.setWidth_eq v.toBitVec))
    rw [hlow]
    exact .nil

lemma widen {b : BitVec w.bits} :
    Steps env (Codegen.widen w) (.ofWidth w b :: s) a (.i64 (w.word b) :: s) a := by
  cases w with
  | w32 => exact .extendU
  | w64 =>
    have hword : Value.i64 (Width.w64.word b) = .ofWidth .w64 b :=
      congrArg Value.i64 (UInt64.toBitVec_inj.1 (BitVec.setWidth_eq b))
    rw [hword]
    exact .nil

lemma bin {op : BinOp} {x y r : BitVec w.bits} (h : op.eval x y = some r) :
    Steps env [.bin w op] (.ofWidth w y :: .ofWidth w x :: s) a (.ofWidth w r :: s) a := by
  cases w with
  | w32 => exact .bin32 h
  | w64 => exact .bin64 h

lemma rel {op : RelOp} {x y : BitVec w.bits} :
    Steps env [.rel w op] (.ofWidth w y :: .ofWidth w x :: s) a (truth (op.holds x y) :: s) a := by
  cases w with
  | w32 => exact of_exec fun _ => rfl
  | w64 => exact .rel64

/-- A truth value becomes a word. -/
lemma extendTruth {p : Bool} : Steps env [.extendU] (truth p :: s) a (.i64 p.toUInt64 :: s) a := by
  cases p <;> exact .extendU

/-- A conditional that leaves a value. -/
lemma ifElse {p : Bool} {yes no : List Instruction} {r : Value}
    (h : Steps env (if p then yes else no) [] a [r] a') :
    Steps env [.ifElse true yes no] (truth p :: s) a (r :: s) a' := by
  apply of_exec
  intro fuel
  cases p with
  | true =>
    have hyes : Instruction.execAll env fuel yes [] a = .ok (.next [r]) a' := h fuel
    exact EStateM.bind_ok hyes
  | false =>
    have hno : Instruction.execAll env fuel no [] a = .ok (.next [r]) a' := h fuel
    exact EStateM.bind_ok hno

lemma drop {r : Value} : Steps env [.drop] (r :: s) a s a := of_exec fun _ => rfl

lemma select {p : Bool} {x y : Value} :
    Steps env [.select] (truth p :: y :: x :: s) a ((if p then x else y) :: s) a := by
  cases p <;> exact of_exec fun _ => rfl

lemma eqz64 {x : UInt64} : Steps env [.eqz64] (.i64 x :: s) a (truth (x == 0) :: s) a :=
  of_exec fun _ => rfl

/-- Whether a word is not zero. -/
lemma isNonzero {x : UInt64} :
    Steps env [.i64Const 0, .rel .w64 .ne] (.i64 x :: s) a (truth (x != 0) :: s) a := by
  have hne : RelOp.holds .ne x.toBitVec (0 : UInt64).toBitVec = (x != 0) := by
    rw [RelOp.holds, Bool.eq_iff_iff, bne_iff_ne, bne_iff_ne, Ne, Ne, UInt64.toBitVec_inj]
  rw [← hne]
  exact Steps.i64Const.cons .rel64

/-- The low bits of a word are extended. -/
lemma extend {n : Nat} (h0 : 0 < n) (hn : n ≤ 64) (signed : Bool) :
    Steps env (Codegen.extend n signed) (.i64 v :: s) a (.i64 (Ir.extend v n signed) :: s) a := by
  unfold Codegen.extend
  split
  · next hle =>
    have hall : Ir.extend v n signed = v := by
      apply Bits.eq_of_bit
      intro i hi
      rw [Ir.bit_extend h0 hn signed hi, if_pos (by omega)]
    rw [hall]
    exact .nil
  · next hlt =>
    cases signed with
    | true =>
      have hamount : (UInt64.ofNat (64 - n)).toBitVec.toNat % 64 = 64 - n := by
        rw [UInt64.toNat_toBitVec, UInt64.toNat_ofNat_of_lt' (show 64 - n < 2 ^ 64 by omega)]
        exact Nat.mod_eq_of_lt (by omega)
      have hvalue : Ir.extend v n true =
          .ofBitVec ((v.toBitVec <<< (64 - n)).sshiftRight (64 - n)) := by
        apply Bits.eq_of_bit
        intro i hi
        rw [Ir.bit_extend h0 hn true hi]
        show _ = ((v.toBitVec <<< (64 - n)).sshiftRight (64 - n)).getLsbD i
        rw [BitVec.getLsbD_sshiftRight, BitVec.msb_eq_getLsbD_last, BitVec.getLsbD_shiftLeft,
          BitVec.getLsbD_shiftLeft]
        by_cases hin : i < n
        · have hshift : 64 - n + i < 64 := by omega
          have hlow : ¬ 64 - n + i < 64 - n := by omega
          simp [hin, hshift, hlow, Nat.not_le.2 hi, bit]
        · have hout : ¬ 64 - n + i < 64 := by omega
          have htop : 63 - (64 - n) = n - 1 := by omega
          have hlow : ¬ 63 < 64 - n := by omega
          simp [hi, hin, hout, htop, hlow, bit]
      rw [hvalue]
      refine Steps.i64Const.cons <| .cons (.bin64 (r := v.toBitVec <<< (64 - n)) ?_) <|
        Steps.i64Const.cons (.bin64 ?_)
      · rw [BinOp.eval, hamount]
      · rw [BinOp.eval, hamount]
    | false => exact Steps.i64Const.cons (.bin64 rfl)

end Steps

end Wasm

end Dynarec
