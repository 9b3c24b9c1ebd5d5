import Dynarec.Proofs.Compiler.Instructions
import Dynarec.Proofs.Compiler.Pieces
import Dynarec.Proofs.Instr.Bitfields

/-!
# Compiled bitfield moves

A bitfield move is compiled to a rotation under two masks that its fields encode. Bit by bit, this takes
the field out and places it, and the bits around it are as they should be. An extract is compiled to two
shifts.
-/

namespace Dynarec.Compiler

open Bits (bit)
open Instr (BitfieldOp bitfieldValue extractValue fieldStart fieldPlace InField bitsAt)
open Ir (Op BinOp Place Operand Local Ty)

variable {cells : List Cell} {cpu : Cpu.State} {mem : Memory}
variable {x y : Operand} {v w : UInt64} {width : Width}

/-! ### The masks -/

/-- The two masks of a bitfield move: which rotated bits count, and where the field ends. -/
structure FieldMasks (width : Width) (immr imms : Nat) (wmask tmask : UInt64) : Prop where
  immr_lt : immr < width.bits
  imms_lt : imms < width.bits
  wmask : ∀ i, bit wmask i = decide (i < width.bits ∧ (i + immr) % width.bits ≤ imms)
  tmask : ∀ i, bit tmask i = decide (i < width.bits ∧ i ≤ (width.bits + imms - immr) % width.bits)

variable {immr imms i : Nat} {wmask tmask src old : UInt64}

/-- Rotating brings the field to its place. -/
lemma rotated_index (himmr : immr < width.bits) (himms : imms < width.bits) (hi : i < width.bits)
    (hin : InField width immr imms i) :
    (i + immr) % width.bits = i - fieldPlace width immr imms + fieldStart immr imms := by
  unfold InField at hin
  rcases Instr.field_cases width immr imms with ⟨hle, hp, hs⟩ | ⟨hlt, hp, hs⟩
  · rw [Nat.mod_eq_of_lt (by omega)]
    omega
  · rw [Nat.mod_eq_sub_mod (by omega), Nat.mod_eq_of_lt (by omega)]
    omega

namespace FieldMasks

variable (h : FieldMasks width immr imms wmask tmask) (hi : i < width.bits)
include h hi

/-- One mask is set up to the end of the field. -/
lemma tmask_iff : bit tmask i = true ↔
    i + fieldStart immr imms ≤ fieldPlace width immr imms + imms := by
  have himmr := h.immr_lt
  have himms := h.imms_lt
  rw [h.tmask, decide_eq_true_iff]
  rcases Instr.field_cases width immr imms with ⟨hle, hp, hs⟩ | ⟨hlt, hp, hs⟩
  · rw [Nat.mod_eq_sub_mod (by omega), Nat.mod_eq_of_lt (by omega)]
    omega
  · rw [Nat.mod_eq_of_lt (by omega)]
    omega

lemma tmask_of_inField (hin : InField width immr imms i) : bit tmask i = true :=
  (h.tmask_iff hi).2 hin.2

/-- Up to the end of the field, the other mask is set in the field only. -/
lemma wmask_iff (ht : bit tmask i = true) : bit wmask i = true ↔ InField width immr imms i := by
  have himmr := h.immr_lt
  have himms := h.imms_lt
  rw [h.tmask_iff hi] at ht
  rw [h.wmask, decide_eq_true_iff]
  unfold InField
  rcases Instr.field_cases width immr imms with ⟨hle, hp, hs⟩ | ⟨hlt, hp, hs⟩
  · rw [Nat.mod_eq_of_lt (by omega)]
    omega
  · rcases Nat.lt_or_ge (i + immr) width.bits with hlow | hhigh
    · rw [Nat.mod_eq_of_lt hlow]
      omega
    · rw [Nat.mod_eq_sub_mod hhigh, Nat.mod_eq_of_lt (by omega)]
      omega

end FieldMasks

/-! ### Bit by bit -/

/-- The rotated field under its mask. -/
def rotated (width : Width) (immr : Nat) (src wmask : UInt64) : UInt64 :=
  BinOp.eval .and width (BinOp.eval .rotR width src (UInt64.ofNat immr)) wmask

/-- The result joins what is below the end of the field with what is above it. -/
lemma bit_joined (tmask bottom top : UInt64) (i : Nat) :
    bit (BinOp.eval .or width (BinOp.eval .and width bottom tmask)
      (BinOp.eval .and width top (~~~tmask))) i =
    (decide (i < width.bits) && if bit tmask i then bit bottom i else bit top i) := by
  have hle := width.bits_le
  rw [BinOp.bit_or, BinOp.bit_and, BinOp.bit_and, Bits.bit_not]
  by_cases hi : i < width.bits
  · have hi64 : i < 64 := by omega
    cases bit tmask i <;> simp [hi, hi64]
  · simp [hi]

namespace FieldMasks

variable (h : FieldMasks width immr imms wmask tmask)
include h

lemma bit_rotated (hi : i < width.bits) (ht : bit tmask i = true) :
    bit (rotated width immr src wmask) i = (decide (InField width immr imms i) &&
      bit src (i - fieldPlace width immr imms + fieldStart immr imms)) := by
  rw [rotated, BinOp.bit_and, BinOp.bit_rotR h.immr_lt]
  by_cases hin : InField width immr imms i
  · rw [(h.wmask_iff hi ht).2 hin, rotated_index h.immr_lt h.imms_lt hi hin]
    simp [hi, hin]
  · rw [Bool.eq_false_iff.2 (mt (h.wmask_iff hi ht).1 hin)]
    simp [hin]

/-- A word is the result of the move when it has the field and what is below it up to the end of the
field, and what is above it from there on. -/
lemma eq_bitfieldValue {op : BitfieldOp} {value : UInt64} (below above : Nat → Bool)
    (hvalue : ∀ i, bit value i =
      (decide (i < width.bits) && if bit tmask i then below i else above i))
    (hbelow : ∀ i < width.bits, bit tmask i = true → below i =
      if InField width immr imms i then bit src (i - fieldPlace width immr imms + fieldStart immr imms)
      else Instr.surrounding width op immr imms src old i)
    (habove : ∀ i < width.bits, bit tmask i = false →
      above i = Instr.surrounding width op immr imms src old i) :
    value = bitfieldValue width op immr imms src old := by
  apply Bits.eq_of_bit
  intro i hi64
  rw [hvalue, Instr.bit_bitfieldValue op hi64]
  by_cases hi : i < width.bits
  · cases ht : bit tmask i with
    | true => simp [hi, hbelow i hi ht]
    | false =>
      have hin : ¬ InField width immr imms i := by
        intro hin
        rw [h.tmask_of_inField hi hin] at ht
        cases ht
      simp [hi, hin, habove i hi ht]
  · simp [hi]

/-- Without anything around the field, one mask more is applied. -/
lemma ubfm_eq : BinOp.eval .and width (rotated width immr src wmask) tmask =
    bitfieldValue width .ubfm immr imms src old := by
  apply h.eq_bitfieldValue (bit (rotated width immr src wmask)) fun _ => false
  · intro i
    rw [BinOp.bit_and]
    cases bit tmask i <;> simp
  · intro i hi ht
    rw [h.bit_rotated hi ht]
    by_cases hin : InField width immr imms i <;> simp [hin, Instr.surrounding]
  · intro i _ _
    rfl

lemma sbfm_eq : BinOp.eval .or width (BinOp.eval .and width (rotated width immr src wmask) tmask)
      (BinOp.eval .and width (BinOp.eval .shrS width
        (BinOp.eval .shl width src (UInt64.ofNat (width.bits - 1 - imms)))
        (UInt64.ofNat (width.bits - 1))) (~~~tmask)) =
    bitfieldValue width .sbfm immr imms src old := by
  have himms := h.imms_lt
  have hlast : width.bits - 1 < width.bits := by omega
  apply h.eq_bitfieldValue _ _ (bit_joined _ _ _)
  · intro i hi ht
    rw [h.bit_rotated hi ht]
    by_cases hin : InField width immr imms i
    · simp [hin]
    · have hplace : ¬ fieldPlace width immr imms ≤ i :=
        fun hle => hin ⟨hle, (h.tmask_iff hi).1 ht⟩
      simp [hin, Instr.surrounding, hplace]
  · intro i hi ht
    have hplace : fieldPlace width immr imms ≤ i := by
      have hend := mt (h.tmask_iff hi).2 (by simp [ht])
      have hle := Instr.fieldStart_le immr imms
      omega
    rw [BinOp.bit_shrS hlast, BinOp.bit_shl (by omega), Nat.min_eq_right (by omega)]
    have hindex : width.bits - 1 - (width.bits - 1 - imms) = imms := by omega
    simp [hi, hlast, hplace, hindex, Instr.surrounding]

lemma bfm_eq : BinOp.eval .or width (BinOp.eval .and width (BinOp.eval .or width
        (rotated width immr src wmask) (BinOp.eval .and width old (~~~wmask))) tmask)
      (BinOp.eval .and width old (~~~tmask)) =
    bitfieldValue width .bfm immr imms src old := by
  have hle := width.bits_le
  apply h.eq_bitfieldValue _ _ (bit_joined _ _ _)
  · intro i hi ht
    have hi64 : i < 64 := by omega
    rw [BinOp.bit_or, h.bit_rotated hi ht, BinOp.bit_and, Bits.bit_not]
    by_cases hin : InField width immr imms i
    · simp [hi, hin, (h.wmask_iff hi ht).2 hin]
    · simp [hi, hi64, hin, mt (h.wmask_iff hi ht).1 hin, Instr.surrounding]
  · intro i _ _
    rfl

end FieldMasks

/-- What the operations of a bitfield move compute from its masks. -/
def movedValue (width : Width) (op : BitfieldOp) (immr imms : Nat) (wmask tmask src old : UInt64) :
    UInt64 :=
  let field := rotated width immr src wmask
  match op with
  | .ubfm => BinOp.eval .and width field tmask
  | .sbfm => BinOp.eval .or width (BinOp.eval .and width field tmask)
      (BinOp.eval .and width (BinOp.eval .shrS width
        (BinOp.eval .shl width src (UInt64.ofNat (width.bits - 1 - imms)))
        (UInt64.ofNat (width.bits - 1))) (~~~tmask))
  | .bfm => BinOp.eval .or width (BinOp.eval .and width (BinOp.eval .or width field
        (BinOp.eval .and width old (~~~wmask))) tmask)
      (BinOp.eval .and width old (~~~tmask))

lemma FieldMasks.movedValue_eq (h : FieldMasks width immr imms wmask tmask) (op : BitfieldOp) :
    movedValue width op immr imms wmask tmask src old = bitfieldValue width op immr imms src old := by
  cases op with
  | sbfm => exact h.sbfm_eq
  | bfm => exact h.bfm_eq
  | ubfm => exact h.ubfm_eq

/-! ### The instructions -/

namespace Computes

/-- The piece gives a new local for the bits above the field. -/
def Tops (k : View) (value : UInt64) : Option Local → View → Prop :=
  fun t k' => ∃ l, t = some l ∧ k' = k.hold l .i64 value

lemma top_sbfm (p : Place) (hx : Has ⟨cells, cpu, mem⟩ x v) :
    Computes ⟨cells, cpu, mem⟩ (bitfieldTop width .sbfm imms x p) (Tops ⟨cells, cpu, mem⟩
      (BinOp.eval .shrS width (BinOp.eval .shl width v (UInt64.ofNat (width.bits - 1 - imms)))
        (UInt64.ofNat (width.bits - 1)))) := by
  refine .alloc _ fun top => .next (bin [] rfl (hx.up [_]) (.imm _)) fun _ => ?_
  refine .next (bin [] rfl (.at 0 rfl) (.imm _)) fun _ => ?_
  exact .pure ⟨top, rfl, rfl⟩

lemma top_bfm (x : Operand) {p : Place} (hp : Has ⟨cells, cpu, mem⟩ (.place p) v) :
    Computes ⟨cells, cpu, mem⟩ (bitfieldTop width .bfm imms x p) (Tops ⟨cells, cpu, mem⟩ v) := by
  refine .bind (P := Supplies ⟨cells, cpu, mem⟩ .i64 v) ?_ ?_
  · refine .alloc _ fun l => .next (write [] rfl (writes_mov (hp.up [_])) (Ty.and_mask_i64 _)) ?_
    intro _
    refine .pure ?_
    rw [Width.and_mask_w64]
    rfl
  · rintro l _ rfl
    exact .pure ⟨l, rfl, rfl⟩

/-- A bitfield move under any masks. -/
lemma masked (width : Width) (op : BitfieldOp) (immr imms : Nat) (wmask tmask : UInt64) (rn rd : Nat) :
    Computes ⟨cells, cpu, mem⟩ (Compiler.bitfield width op immr imms wmask tmask rn rd)
      (Arrives ⟨cells, cpu.writeX rd width (movedValue width op immr imms wmask tmask
        (cpu.readX rn .w64) (cpu.readX rd .w64)), mem⟩) := by
  unfold Compiler.bitfield
  by_cases hrd : rd = 31
  · rw [show dest rd = none from if_pos hrd, cpu.writeX_of_le (Nat.le_of_eq hrd.symm)]
    exact skip
  rw [show dest rd = some (.x rd) from if_neg hrd]
  have hsrc : ∀ cells, Has ⟨cells, cpu, mem⟩ (gpr rn) (cpu.readX rn .w64) := fun _ => has_gpr _ rn
  have hold : ∀ cells, Has ⟨cells, cpu, mem⟩ (.place (.x rd)) (cpu.readX rd .w64) :=
    fun _ => .place (p := .x rd) nofun
  refine .alloc _ fun bottom => .next (bin [] rfl (hsrc _) (.imm _)) fun _ => ?_
  refine .next (bin [] rfl (.at 0 rfl) (.imm _)) fun _ => ?_
  cases op with
  | sbfm =>
    refine .alloc _ fun result => .next (bin [] rfl (.at 1 rfl) (.imm _)) fun _ => ?_
    refine .bind (top_sbfm _ (hsrc _)) ?_
    rintro _ _ ⟨top, rfl, rfl⟩
    refine .next (bin [] rfl (.at 0 rfl) (.imm _)) fun _ => ?_
    refine .next (bin [_] rfl (.at 1 rfl) (.at 0 rfl)) fun _ => .next (release [] rfl) fun _ => ?_
    refine .next (moveX rd (.at 0 rfl)) fun _ => .next (release [] rfl) fun _ => ?_
    exact release [] rfl
  | bfm =>
    refine .alloc _ fun kept => .next (bin [] rfl (hold _) (.imm _)) fun _ => ?_
    refine .next (bin [_] rfl (.at 1 rfl) (.at 0 rfl)) fun _ => .next (release [] rfl) fun _ => ?_
    refine .alloc _ fun result => .next (bin [] rfl (.at 1 rfl) (.imm _)) fun _ => ?_
    refine .bind (top_bfm _ (hold _)) ?_
    rintro _ _ ⟨top, rfl, rfl⟩
    refine .next (bin [] rfl (.at 0 rfl) (.imm _)) fun _ => ?_
    refine .next (bin [_] rfl (.at 1 rfl) (.at 0 rfl)) fun _ => .next (release [] rfl) fun _ => ?_
    refine .next (moveX rd (.at 0 rfl)) fun _ => .next (release [] rfl) fun _ => ?_
    exact release [] rfl
  | ubfm =>
    refine .alloc _ fun result => .next (bin [] rfl (.at 1 rfl) (.imm _)) fun _ => ?_
    refine .bind (P := fun t k' => t = none ∧ k' = _) (.pure ⟨rfl, rfl⟩) ?_
    rintro _ _ ⟨rfl, rfl⟩
    refine .next (moveX rd (.at 0 rfl)) fun _ => .next (release [] rfl) fun _ => ?_
    exact release [] rfl

/-- A bitfield move. -/
lemma bitfield (h : FieldMasks width immr imms wmask tmask) (op : BitfieldOp) (rn rd : Nat) :
    Computes ⟨cells, cpu, mem⟩ (bitfield width op immr imms wmask tmask rn rd)
      (Arrives ⟨cells, cpu.writeX rd width (bitfieldValue width op immr imms (cpu.readX rn .w64)
        (cpu.readX rd .w64)), mem⟩) := by
  rw [← h.movedValue_eq]
  exact masked width op immr imms wmask tmask rn rd

/-- An extract. -/
lemma extract {lsb : Nat} (hlsb : lsb < width.bits) (rm rn rd : Nat) :
    Computes ⟨cells, cpu, mem⟩ (extract width lsb rm rn rd) (Arrives ⟨cells,
      cpu.writeX rd width (extractValue width lsb (cpu.readX rn .w64) (cpu.readX rm .w64)),
      mem⟩) := by
  unfold Compiler.extract
  split
  · next h =>
    subst h
    have hvalue : cpu.readX rm .w64 &&& width.mask =
        extractValue width 0 (cpu.readX rn .w64) (cpu.readX rm .w64) &&& width.mask := by
      apply Bits.eq_of_bit
      intro i hi
      rw [Bits.bit_and, Bits.bit_and, Instr.bit_extractValue hi hlsb, Bits.bit_mask]
      by_cases hlt : i < width.bits <;> simp [hlt]
    rw [← cpu.writeX_congr rd hvalue]
    exact moveDest rd (has_gpr _ rm)
  · next h =>
    have hsrc : ∀ cells n, Has ⟨cells, cpu, mem⟩ (gpr n) (cpu.readX n .w64) := fun _ n => has_gpr _ n
    have hvalue : BinOp.eval .or width
        (BinOp.eval .shrU width (cpu.readX rm .w64) (UInt64.ofNat lsb))
        (BinOp.eval .shl width (cpu.readX rn .w64) (UInt64.ofNat (width.bits - lsb))) =
        extractValue width lsb (cpu.readX rn .w64) (cpu.readX rm .w64) := by
      apply Bits.eq_of_bit
      intro i hi
      rw [BinOp.bit_or, BinOp.bit_shrU hlsb, BinOp.bit_shl (by omega), Instr.bit_extractValue hi hlsb,
        Nat.add_comm lsb]
      by_cases hlt : i < width.bits
      · by_cases hlow : i + lsb < width.bits
        · have hhigh : ¬ width.bits - lsb ≤ i := by omega
          simp [hlt, hlow, hhigh]
        · have hhigh : width.bits - lsb ≤ i := by omega
          have hindex : i - (width.bits - lsb) = i + lsb - width.bits := by omega
          simp [hlt, hlow, hhigh, hindex]
      · simp [hlt]
    rw [← hvalue]
    refine .alloc _ fun low => .alloc _ fun high => ?_
    refine .next (bin [_] rfl (hsrc _ rm) (.imm _)) fun _ => ?_
    refine .next (bin [] rfl (hsrc _ rn) (.imm _)) fun _ => ?_
    refine .next (bin [_] rfl (.at 1 rfl) (.at 0 rfl)) fun _ => ?_
    refine .next (moveDest rd (.at 1 rfl)) fun _ => .next (release [] rfl) fun _ => ?_
    exact release [] rfl

end Computes

/-! ### Words -/

section
variable {word : UInt32}

/-- The fields of a bitfield move. -/
def bitfieldFields : List Encoding.Field :=
  [⟨"sf", 31, 1, none⟩, ⟨"opc", 29, 2, some (.exclude [3])⟩, ⟨"N", 22, 1, none⟩,
    ⟨"immr", 16, 6, none⟩, ⟨"imms", 10, 6, none⟩, ⟨"Rn", 5, 5, none⟩, ⟨"Rd", 0, 5, none⟩]

lemma toPattern_bitfield : (Instr.Form.compiled "bitfield"
    "sf:1 opc:2 100110 N:1 immr:6 imms:6 Rn:5 Rd:5" Instr.Form.bitfield
    [("opc", .exclude [3])]).toPattern = .ok ⟨0x1f800000, 0x13000000, bitfieldFields⟩ :=
  Instr.Form.toPattern_of_chars (P := fun p => p = .ok _) rfl rfl

lemma admits_bitfield (word : UInt32) :
    bitfieldFields.all (·.admits word) = true ↔ bitsAt word 29 2 ≠ 3 := by
  simp [bitfieldFields, Encoding.Field.admits, Encoding.Constraint.admits, Encoding.Field.extract,
    bitsAt]

lemma read_bitfield (word : UInt32) (opc rn rd : Nat) {sf n immr imms : Nat} (hn : n = sf)
    (hmasks : Bits.decodeMasks sf imms immr false (.ofSizeBit sf) = some (wmask, tmask)) :
    Instr.Form.bitfield ⟨word, [("sf", sf), ("opc", opc), ("N", n), ("immr", immr), ("imms", imms),
      ("Rn", rn), ("Rd", rd)]⟩ = .ok (.bitfield (.ofSizeBit sf)
        (match opc with | 0 => .sbfm | 1 => .bfm | _ => .ubfm) immr imms wmask tmask rn rd) := by
  subst hn
  show (Instr.Form.require (n == n) >>= fun _ =>
    Instr.Form.allocated (Bits.decodeMasks n imms immr false (.ofSizeBit n)) >>= fun masks =>
      .ok (Instr.bitfield (.ofSizeBit n) (match opc with | 0 => .sbfm | 1 => .bfm | _ => .ubfm)
        immr imms masks.1 masks.2 rn rd)) = _
  rw [require_bind, beq_self_eq_true, if_pos rfl, hmasks]
  rfl

lemma read_extract (word : UInt32) (sf n rm lsb rn rd : Nat) : Instr.Form.extract ⟨word,
    [("sf", sf), ("N", n), ("Rm", rm), ("imms", lsb), ("Rn", rn), ("Rd", rd)]⟩ =
      if n == sf && (Width.ofSizeBit sf == .w64 || lsb < 32) then
        .ok (.extract (.ofSizeBit sf) lsb rm rn rd)
      else .error .unallocated := by
  show (Instr.Form.require (n == sf && (Width.ofSizeBit sf == .w64 || lsb < 32)) >>= fun _ =>
    .ok (Instr.extract (.ofSizeBit sf) lsb rm rn rd)) = _
  rw [require_bind]

lemma lowerWord_move (h : Instr.BitfieldMove.Encodes word) :
    Performs (lowerWord word) (Instr.BitfieldMove.ofWord word).apply := by
  obtain ⟨wmask, tmask, hdecode, hw, ht⟩ :=
    Bits.decodeMasks_field (Instr.bitsAt_lt word 31 1) h.imms h.immr
  have hmasks : FieldMasks (.ofSizeBit (bitsAt word 31 1)) (bitsAt word 16 6) (bitsAt word 10 6)
      wmask tmask := ⟨h.immr, h.imms, hw, ht⟩
  have hread := read_bitfield word (bitsAt word 29 2) (bitsAt word 5 5) (bitsAt word 0 5) h.size hdecode
  rw [lowerWord_read (i := 36) rfl toPattern_bitfield h.fixed ((admits_bitfield word).2 h.opc) hread]
  apply performs_of_computes
  intro cpu mem
  have hmove : Computes ⟨[], cpu, mem⟩ _ _ := Computes.bitfield hmasks
    (Instr.BitfieldMove.ofWord word).op (bitsAt word 5 5) (bitsAt word 0 5)
  rw [← cpu.writeX_and_mask, Instr.bitfieldValue_and_mask] at hmove
  exact hmove

lemma lowerWord_extract (h : word &&& 0x7fa00000 = 0x13800000) :
    match Instr.Extract.ofWord? word with
    | some e => Performs (lowerWord word) e.apply
    | none => lowerWord word = invalid := by
  have hread := read_extract word (bitsAt word 31 1) (bitsAt word 22 1) (bitsAt word 16 5)
    (bitsAt word 10 6) (bitsAt word 5 5) (bitsAt word 0 5)
  have hlower := lowerWord_read (i := 37) rfl
    (Instr.Form.toPattern_of_chars (P := fun p => p = .ok _) rfl rfl) h rfl hread
  have hiff : (bitsAt word 22 1 == bitsAt word 31 1 && (Width.ofSizeBit (bitsAt word 31 1) == .w64 ||
      decide (bitsAt word 10 6 < 32))) = true ↔ bitsAt word 22 1 = bitsAt word 31 1 ∧
        bitsAt word 10 6 < (Width.ofSizeBit (bitsAt word 31 1)).bits := by
    rw [Bool.and_eq_true, beq_iff_eq, allocated_iff (Instr.bitsAt_lt word 10 6)]
  by_cases hok : bitsAt word 22 1 = bitsAt word 31 1 ∧
      bitsAt word 10 6 < (Width.ofSizeBit (bitsAt word 31 1)).bits
  · simp only [Instr.Extract.ofWord?, if_pos hok]
    rw [hlower, if_pos (hiff.2 hok)]
    apply performs_of_computes
    intro cpu mem
    have hextract : Computes ⟨[], cpu, mem⟩ _ _ := Computes.extract hok.2
      (bitsAt word 16 5) (bitsAt word 5 5) (bitsAt word 0 5)
    rw [← cpu.writeX_and_mask, Instr.extractValue_and_mask hok.2] at hextract
    exact hextract
  · simp only [Instr.Extract.ofWord?, if_neg hok]
    rw [hlower, if_neg (mt hiff.1 hok)]
    rfl

/-- A bitfield move and an extract do to the registers what their fields say, and reserved extracts are
refused. -/
theorem lowerWord_bitfield (word : UInt32) :
    (Instr.BitfieldMove.Encodes word →
      Performs (lowerWord word) (Instr.BitfieldMove.ofWord word).apply) ∧
    (word &&& 0x7fa00000 = 0x13800000 →
      match Instr.Extract.ofWord? word with
      | some e => Performs (lowerWord word) e.apply
      | none => ∀ b : Block, lowerWord word b = .error (.invalidEncoding b.pc b.word) b) := by
  refine ⟨lowerWord_move, fun h => ?_⟩
  have hextract := lowerWord_extract h
  revert hextract
  cases Instr.Extract.ofWord? word with
  | some e => exact id
  | none =>
    intro hinvalid b
    rw [show lowerWord word = invalid from hinvalid]
    rfl

/-- Inserting the low byte of a register into another one, and joining two registers. -/
theorem lowerWord_bitfield_insert :
    Performs (lowerWord 0xb3781c20)
      (Instr.BitfieldMove.apply ⟨.w64, .bfm, 56, 7, 1, 0⟩) ∧
    Performs (lowerWord 0x93c22020) (Instr.Extract.apply ⟨.w64, 8, 2, 1, 0⟩) :=
  ⟨(lowerWord_bitfield 0xb3781c20).1 ⟨rfl, by decide, rfl, by decide, by decide⟩,
    (lowerWord_bitfield 0x93c22020).2 rfl⟩

end

end Dynarec.Compiler
