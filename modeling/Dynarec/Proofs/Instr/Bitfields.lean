import Dynarec.Cpu.State
import Dynarec.Proofs.Instr.Decoding
import Dynarec.Proofs.Ir.Eval

/-!
# Bitfields

The reference for the instructions that move a bitfield: a run of bits of one register is taken out, placed
into the result, and surrounded by zeros, by copies of its top bit or by what the destination holds. An
extract takes a register out of two that stand side by side.
-/

namespace Dynarec.Instr

open Bits

variable {w : Width} {immr imms i : Nat} {src old : UInt64}

/-- The first bit of the field that is moved. -/
def fieldStart (immr imms : Nat) : Nat := if immr ≤ imms then immr else 0

/-- The bit that the field is moved to. -/
def fieldPlace (w : Width) (immr imms : Nat) : Nat := if immr ≤ imms then 0 else w.bits - immr

/-- The result of a bitfield move: bits `imms` to `immr` go to the low bits, or else bits `imms` to 0 go
up by as much as `immr` falls short of the width. -/
def bitfieldValue (w : Width) (op : BitfieldOp) (immr imms : Nat) (src old : UInt64) : UInt64 :=
  let len := imms + 1 - fieldStart immr imms
  let field : BitVec len := src.toBitVec.extractLsb' (fieldStart immr imms) len
  let result : BitVec w.bits := match op with
    | .ubfm => field.setWidth w.bits <<< fieldPlace w immr imms
    | .sbfm => field.signExtend w.bits <<< fieldPlace w immr imms
    | .bfm =>
      let hole := (BitVec.allOnes len).setWidth w.bits <<< fieldPlace w immr imms
      (old.toBitVec.setWidth w.bits &&& ~~~hole) ||| field.setWidth w.bits <<< fieldPlace w immr imms
  .ofBitVec (result.setWidth 64)

/-- The bits from `lsb` on of two registers, the first of which holds the high bits. -/
def extractValue (w : Width) (lsb : Nat) (high low : UInt64) : UInt64 :=
  let both : BitVec (w.bits + w.bits) := high.toBitVec.setWidth w.bits ++ low.toBitVec.setWidth w.bits
  .ofBitVec ((both.extractLsb' lsb w.bits).setWidth 64)

/-! ### Bit by bit -/

/-- A bit of the result is in the field. -/
def InField (w : Width) (immr imms i : Nat) : Prop :=
  fieldPlace w immr imms ≤ i ∧ i + fieldStart immr imms ≤ fieldPlace w immr imms + imms

instance (w : Width) (immr imms i : Nat) : Decidable (InField w immr imms i) :=
  inferInstanceAs (Decidable (_ ∧ _))

/-- The bit around the field of the result. -/
def surrounding (w : Width) (op : BitfieldOp) (immr imms : Nat) (src old : UInt64) (i : Nat) : Bool :=
  match op with
  | .ubfm => false
  | .sbfm => decide (fieldPlace w immr imms ≤ i) && bit src imms
  | .bfm => bit old i

/-- A field goes down to the lowest bits, or up from the lowest bits. -/
lemma field_cases (w : Width) (immr imms : Nat) :
    (immr ≤ imms ∧ fieldPlace w immr imms = 0 ∧ fieldStart immr imms = immr) ∨
    (imms < immr ∧ fieldPlace w immr imms = w.bits - immr ∧ fieldStart immr imms = 0) := by
  unfold fieldPlace fieldStart
  rcases Nat.lt_or_ge imms immr with h | h
  · exact .inr ⟨h, if_neg (Nat.not_le.2 h), if_neg (Nat.not_le.2 h)⟩
  · exact .inl ⟨h, if_pos h, if_pos h⟩

lemma fieldStart_le (immr imms : Nat) : fieldStart immr imms ≤ imms := by
  rcases field_cases .w64 immr imms with ⟨h, -, hs⟩ | ⟨-, -, hs⟩ <;> omega

/-- A bit of the field, placed into the result. -/
lemma getLsbD_field (i : Nat) : (((src.toBitVec.extractLsb' (fieldStart immr imms)
      (imms + 1 - fieldStart immr imms)).setWidth w.bits) <<< fieldPlace w immr imms).getLsbD i =
    (decide (i < w.bits) && (decide (InField w immr imms i) &&
      bit src (i - fieldPlace w immr imms + fieldStart immr imms))) := by
  have hle := fieldStart_le immr imms
  rw [BitVec.getLsbD_shiftLeft, BitVec.getLsbD_setWidth, BitVec.getLsbD_extractLsb', Nat.add_comm (fieldStart immr imms)]
  by_cases hi : i < w.bits
  · by_cases hin : InField w immr imms i
    · have h := hin
      unfold InField at h
      have h1 : ¬ i < fieldPlace w immr imms := by omega
      have h2 : i - fieldPlace w immr imms < w.bits := by omega
      have h3 : i - fieldPlace w immr imms < imms + 1 - fieldStart immr imms := by omega
      simp [hi, hin, h1, h2, h3, bit]
    · have h := hin
      unfold InField at h
      by_cases h1 : i < fieldPlace w immr imms
      · simp [hin, h1]
      · have h3 : ¬ i - fieldPlace w immr imms < imms + 1 - fieldStart immr imms := by omega
        simp [hin, h3]
  · simp [hi]

/-- A bit of the hole that the field leaves in what the destination holds. -/
lemma getLsbD_hole (i : Nat) : (((BitVec.allOnes (imms + 1 - fieldStart immr imms)).setWidth w.bits) <<<
    fieldPlace w immr imms).getLsbD i = (decide (i < w.bits) && decide (InField w immr imms i)) := by
  have hle := fieldStart_le immr imms
  rw [BitVec.getLsbD_shiftLeft, BitVec.getLsbD_setWidth, BitVec.getLsbD_allOnes]
  unfold InField
  by_cases hi : i < w.bits
  · have h2 : i - fieldPlace w immr imms < w.bits := by omega
    simp only [hi, h2, decide_true, Bool.true_and, ← decide_not, ← Bool.decide_and]
    apply decide_eq_decide.2
    omega
  · simp [hi]

lemma bit_bitfieldValue (op : BitfieldOp) (hi : i < 64) :
    bit (bitfieldValue w op immr imms src old) i = (decide (i < w.bits) &&
      if InField w immr imms i then bit src (i - fieldPlace w immr imms + fieldStart immr imms)
      else surrounding w op immr imms src old i) := by
  cases op with
  | ubfm =>
    rw [bitfieldValue, bit_ofBitVec hi, getLsbD_field]
    by_cases hin : InField w immr imms i <;> simp [hin, surrounding]
  | bfm =>
    rw [bitfieldValue, bit_ofBitVec hi, BitVec.getLsbD_or, BitVec.getLsbD_and, BitVec.getLsbD_not, getLsbD_field, getLsbD_hole,
      BitVec.getLsbD_setWidth]
    by_cases hlt : i < w.bits
    · by_cases hin : InField w immr imms i <;> simp [hlt, hin, surrounding, bit]
    · simp [hlt]
  | sbfm =>
    have hle := fieldStart_le immr imms
    rw [bitfieldValue, bit_ofBitVec hi, BitVec.getLsbD_shiftLeft, BitVec.getLsbD_signExtend,
      BitVec.msb_eq_getLsbD_last, BitVec.getLsbD_extractLsb', BitVec.getLsbD_extractLsb']
    by_cases hlt : i < w.bits
    · by_cases hplace : i < fieldPlace w immr imms
      · have hin : ¬ InField w immr imms i := fun h => absurd h.1 (Nat.not_le.2 hplace)
        simp [hplace, hin, surrounding, Nat.not_le.2 hplace]
      · have h2 : i - fieldPlace w immr imms < w.bits := by omega
        have hiff : i - fieldPlace w immr imms < imms + 1 - fieldStart immr imms ↔
            InField w immr imms i := by
          unfold InField
          omega
        have hlast : imms + 1 - fieldStart immr imms - 1 < imms + 1 - fieldStart immr imms := by omega
        have htop : fieldStart immr imms + (imms + 1 - fieldStart immr imms - 1) = imms := by omega
        rw [htop, Nat.add_comm (fieldStart immr imms)]
        by_cases hin : InField w immr imms i
        · simp [hlt, hplace, h2, hiff.2 hin, hin, bit]
        · have hin' := mt hiff.1 hin
          simp [hlt, hplace, h2, hin', hin, hlast, surrounding, Nat.not_lt.1 hplace, bit]
    · simp [hlt]

lemma bit_extractValue {lsb : Nat} {high low : UInt64} (hi : i < 64) (hlsb : lsb < w.bits) :
    bit (extractValue w lsb high low) i = (decide (i < w.bits) &&
      if i + lsb < w.bits then bit low (i + lsb) else bit high (i + lsb - w.bits)) := by
  rw [extractValue, bit_ofBitVec hi, BitVec.getLsbD_extractLsb', BitVec.getLsbD_append, Nat.add_comm lsb]
  by_cases hlt : i < w.bits
  · split
    · next h => simp [hlt, h, bit]
    · next h =>
      have hhigh : i + lsb - w.bits < w.bits := by omega
      simp [hlt, hhigh, bit]
  · simp [hlt]

/-- The result of a bitfield move has no bits above the width. -/
lemma bitfieldValue_and_mask (w : Width) (op : BitfieldOp) (immr imms : Nat) (src old : UInt64) :
    bitfieldValue w op immr imms src old &&& w.mask = bitfieldValue w op immr imms src old := by
  apply eq_of_bit
  intro i hi
  rw [bit_and, bit_mask, bit_bitfieldValue op hi]
  by_cases h : i < w.bits <;> simp [h]

lemma extractValue_and_mask {lsb : Nat} (hlsb : lsb < w.bits) (high low : UInt64) :
    extractValue w lsb high low &&& w.mask = extractValue w lsb high low := by
  apply eq_of_bit
  intro i hi
  rw [bit_and, bit_mask, bit_extractValue hi hlsb]
  by_cases h : i < w.bits <;> simp [h]

/-! ### Words -/

/-- A bitfield move. -/
structure BitfieldMove where
  width : Width
  op : BitfieldOp
  immr : Nat
  imms : Nat
  rn : Nat
  rd : Nat

namespace BitfieldMove

/-- The bitfield move of a word. -/
def ofWord (word : UInt32) : BitfieldMove where
  width := .ofSizeBit (bitsAt word 31 1)
  op := match bitsAt word 29 2 with
    | 0 => .sbfm
    | 1 => .bfm
    | _ => .ubfm
  immr := bitsAt word 16 6
  imms := bitsAt word 10 6
  rn := bitsAt word 5 5
  rd := bitsAt word 0 5

/-- A word is a bitfield move whose positions are in the register. -/
structure Encodes (word : UInt32) : Prop where
  fixed : word &&& 0x1f800000 = 0x13000000
  opc : bitsAt word 29 2 ≠ 3
  size : bitsAt word 22 1 = bitsAt word 31 1
  immr : bitsAt word 16 6 < (Width.ofSizeBit (bitsAt word 31 1)).bits
  imms : bitsAt word 10 6 < (Width.ofSizeBit (bitsAt word 31 1)).bits

/-- The state after a bitfield move. Register 31 is zero and is not written. -/
def apply (m : BitfieldMove) (cpu : Cpu.State) : Cpu.State :=
  cpu.writeX m.rd .w64 (bitfieldValue m.width m.op m.immr m.imms (cpu.readX m.rn .w64)
    (cpu.readX m.rd .w64))

end BitfieldMove

/-- An extract. -/
structure Extract where
  width : Width
  lsb : Nat
  rm : Nat
  rn : Nat
  rd : Nat

namespace Extract

/-- The extract of a word; there is none for words that are reserved. -/
def ofWord? (word : UInt32) : Option Extract :=
  let width := Width.ofSizeBit (bitsAt word 31 1)
  let lsb := bitsAt word 10 6
  if bitsAt word 22 1 = bitsAt word 31 1 ∧ lsb < width.bits then
    some ⟨width, lsb, bitsAt word 16 5, bitsAt word 5 5, bitsAt word 0 5⟩
  else none

/-- The state after an extract. -/
def apply (e : Extract) (cpu : Cpu.State) : Cpu.State :=
  cpu.writeX e.rd .w64 (extractValue e.width e.lsb (cpu.readX e.rn .w64) (cpu.readX e.rm .w64))

end Extract

end Dynarec.Instr
