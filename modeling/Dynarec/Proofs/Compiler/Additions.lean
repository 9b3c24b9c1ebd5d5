import Dynarec.Proofs.Compiler.Instructions
import Dynarec.Proofs.Compiler.Pieces
import Dynarec.Proofs.Instr.Additions

/-!
# Compiled additions

Every instruction that adds, subtracts or compares is compiled to operations that do what its addition
does: the result and the flags are those of the addition with carry of the processor.
-/

namespace Dynarec.Compiler

open Instr (Addition AdditionClass Summand Dest FlagRule bitsAt shiftedValue extendedValue)
open Ir (Op BinOp CmpOp Place Operand Local Ty)

variable {cells : List Cell} {cpu : Cpu.State} {mem : Memory}
variable {x y : Operand} {v w : UInt64} {width : Width}

/-! ### Operands and results -/

/-- The place of a result. -/
def destPlace : Dest → Option Place
  | .discarded => none
  | .reg n => dest n
  | .regOrSp n => some (placeOrSp n)

lemma toUInt64_eq_ofNat (b : Bool) : b.toUInt64 = UInt64.ofNat b.toNat := by cases b <;> rfl

/-- The bits of a word below a width. -/
lemma getLsbD_cut (i : Nat) (h : i < width.bits) :
    ((v &&& width.mask).toBitVec.setWidth width.bits).getLsbD i = Bits.bit v i := by
  rw [BitVec.getLsbD_setWidth]
  show (decide (i < width.bits) && Bits.bit (v &&& width.mask) i) = _
  simp [Bits.bit_mask, h]

/-- The operator of a shift shifts the low bits of a word. -/
lemma eval_shiftOp {shift amount : Nat} (hshift : shift < 3) (hamount : amount < width.bits) :
    (shiftOp shift).eval width v (UInt64.ofNat amount) =
      shiftedValue width (v &&& width.mask) shift amount := by
  apply Bits.eq_of_bit
  intro i hi
  have hcases : shift = 0 ∨ shift = 1 ∨ shift = 2 := by omega
  rcases hcases with rfl | rfl | rfl
  · rw [show shiftOp 0 = .shl from rfl, BinOp.bit_shl hamount, shiftedValue, Bits.bit_ofBitVec hi, BitVec.getLsbD_shiftLeft]
    by_cases hlt : i < width.bits
    · rw [getLsbD_cut _ (by omega)]
      by_cases hge : amount ≤ i
      · simp [hlt, hge, Nat.not_lt.2 hge]
      · simp [hlt, hge, Nat.not_le.1 hge]
    · simp [hlt]
  · rw [show shiftOp 1 = .shrU from rfl, BinOp.bit_shrU hamount, shiftedValue, Bits.bit_ofBitVec hi, BitVec.getLsbD_ushiftRight]
    by_cases hlt : amount + i < width.bits
    · rw [getLsbD_cut _ hlt]
      simp [hlt]
    · rw [BitVec.getLsbD_of_ge _ _ (by omega)]
      simp [hlt]
  · have hvalue : shiftedValue width (v &&& width.mask) 2 amount = .ofBitVec (BitVec.setWidth 64
        (((v &&& width.mask).toBitVec.setWidth width.bits).sshiftRight amount)) := rfl
    rw [show shiftOp 2 = .shrS from rfl, BinOp.bit_shrS hamount, hvalue, Bits.bit_ofBitVec hi,
      BitVec.getLsbD_sshiftRight, BitVec.msb_eq_getLsbD_last, getLsbD_cut (width.bits - 1) (by omega)]
    by_cases hlt : i < width.bits
    · by_cases hsum : amount + i < width.bits
      · rw [getLsbD_cut _ hsum, Nat.min_eq_left (by omega)]
        simp [hlt, hsum, Nat.not_le.2 hlt]
      · rw [Nat.min_eq_right (by omega)]
        simp [hlt, hsum, Nat.not_le.2 hlt]
    · simp [hlt, Nat.not_lt.1 hlt]

/-- An extension and a shift give the extended and shifted value. -/
lemma eval_extend {option amount : Nat} (hoption : option < 8) (hamount : amount ≤ 4) :
    BinOp.eval .shl .w64 (Ir.extend v (8 <<< (option % 4)) (4 ≤ option % 8)) (UInt64.ofNat amount) =
      extendedValue v option amount := by
  have hbits : 0 < 8 <<< (option % 4) ∧ 8 <<< (option % 4) ≤ 64 := by
    have h4 : option % 4 < 4 := Nat.mod_lt _ (by decide)
    have hcases : option % 4 = 0 ∨ option % 4 = 1 ∨ option % 4 = 2 ∨ option % 4 = 3 := by omega
    rcases hcases with h | h | h | h <;> rw [h] <;> decide
  have hsize : ∀ j < 64, Bits.bit (Ir.extend v (8 <<< (option % 4)) (4 ≤ option % 8)) j =
      (if option < 4 then ((v.toBitVec.setWidth (8 <<< (option % 4))).setWidth 64)
        else ((v.toBitVec.setWidth (8 <<< (option % 4))).signExtend 64)).getLsbD j := by
    intro j hj
    rw [Ir.bit_extend hbits.1 hbits.2 _ hj, Nat.mod_eq_of_lt hoption]
    by_cases hlow : option < 4
    · rw [if_pos hlow, BitVec.getLsbD_setWidth, BitVec.getLsbD_setWidth]
      by_cases hlt : j < 8 <<< (option % 4)
      · simp [hlt, hj, Bits.bit]
      · simp [hlt, Nat.not_le.2 hlow]
    · rw [if_neg hlow, BitVec.getLsbD_signExtend, BitVec.msb_eq_getLsbD_last, BitVec.getLsbD_setWidth,
        BitVec.getLsbD_setWidth]
      by_cases hlt : j < 8 <<< (option % 4)
      · simp [hlt, hj, Bits.bit]
      · have hlast : 8 <<< (option % 4) - 1 < 8 <<< (option % 4) := by omega
        simp [hlt, hj, Nat.not_lt.1 hlow, hlast, Bits.bit]
  have hshift : ∀ (b : BitVec 64) i, Bits.bit (.ofBitVec (b <<< amount)) i = (b <<< amount).getLsbD i :=
    fun _ _ => rfl
  apply Bits.eq_of_bit
  intro i hi
  rw [extendedValue, hshift, BinOp.bit_shl (Nat.lt_of_le_of_lt hamount (by decide)), BitVec.getLsbD_shiftLeft]
  by_cases hlt : i < amount
  · simp [hlt, Nat.not_le.2 hlt]
  · rw [← hsize _ (by omega)]
    simp [hi, hlt, Nat.not_lt.1 hlt, Width.bits]

namespace Computes

/-- A result is moved to its place. -/
lemma moveResult (d : Dest) (hx : Has ⟨cells, cpu, mem⟩ x v) : Computes ⟨cells, cpu, mem⟩
    (move (destPlace d) x width) (Arrives ⟨cells, d.write width v cpu, mem⟩) := by
  cases d with
  | discarded => exact skip
  | reg n => exact moveDest n hx
  | regOrSp n => exact moveOrSp n hx

/-- A result without flags is written to its place. -/
lemma binResult (width : Width) (op : BinOp) (d : Dest) (hx : Has ⟨cells, cpu, mem⟩ x v)
    (hy : Has ⟨cells, cpu, mem⟩ y w) : Computes ⟨cells, cpu, mem⟩
      (match destPlace d with | some p => Compiler.bin p op width x y | none => Pure.pure ())
      (Arrives ⟨cells, d.write width (op.eval width v w) cpu, mem⟩) := by
  cases d with
  | discarded => exact skip
  | reg n =>
    by_cases h : n = 31
    · rw [destPlace, show dest n = none from if_pos h, Dest.write,
        cpu.writeX_of_le (Nat.le_of_eq h.symm)]
      exact skip
    · rw [destPlace, show dest n = some (.x n) from if_neg h]
      exact binDest n hx hy
  | regOrSp n => exact binOrSp n hx hy

/-! ### The instructions -/

variable {left right : Summand} {sub : Bool} {d : Dest}

/-- The complement of a value is taken below a width. -/
lemma complement_congr (sub : Bool) (hw : w &&& width.mask = v &&& width.mask) :
    (if sub then ~~~w else w) &&& width.mask = (if sub then ~~~v else v) &&& width.mask := by
  cases sub with
  | false => exact hw
  | true =>
    apply Bits.eq_of_bit
    intro i _
    have hbit := congrArg (Bits.bit · i) hw
    simp only [Bits.bit_and, Bits.bit_not, Bits.bit_mask, if_pos] at hbit ⊢
    by_cases hlt : i < width.bits
    · simp_all
    · simp [hlt]

/-- A sum with its flags, or a difference, which is the sum with the complement, is formed in a new
local. -/
lemma sumFlags (sub : Bool) (hx : Has ⟨cells, cpu, mem⟩ x v) (hy : Has ⟨cells, cpu, mem⟩ y w)
    (hv : v &&& width.mask = left.value width cpu &&& width.mask)
    (hw : w &&& width.mask = (if sub then ~~~right.value width cpu else right.value width cpu) &&&
      width.mask) (flags : FlagRule) (d : Dest) :
    Computes ⟨cells, cpu, mem⟩ (Compiler.addCarryFlags width x y (const sub.toNat))
      (Supplies ⟨cells, cpu.writeNzcv (Addition.sum ⟨width, sub, false, left, right, flags, d⟩ cpu).2,
        mem⟩ .i64 (Addition.sum ⟨width, sub, false, left, right, flags, d⟩ cpu).1) := by
  have hsum : Addition.sum ⟨width, sub, false, left, right, flags, d⟩ cpu =
      Cpu.addWithCarry v w sub width := (Ir.addWithCarry_congr hv hw).symm
  rw [hsum]
  apply addCarryFlags hx hy
  rw [const, ← toUInt64_eq_ofNat]
  exact .const

/-- A sum or a difference is written to its place. -/
lemma addSub (sub setFlags : Bool) (hx : Has ⟨cells, cpu, mem⟩ x v) (hy : Has ⟨cells, cpu, mem⟩ y w)
    (hv : v &&& width.mask = left.value width cpu &&& width.mask)
    (hw : w &&& width.mask = right.value width cpu &&& width.mask) :
    Computes ⟨cells, cpu, mem⟩ (addSub width sub setFlags x y (destPlace d)) (Arrives ⟨cells,
      Addition.apply ⟨width, sub, false, left, right, if setFlags then .set else .keep, d⟩ cpu,
      mem⟩) := by
  cases setFlags with
  | true =>
    refine .bind (complementIf sub hy) ?_
    rintro ⟨y', ls⟩ _ ⟨held, w', rfl, rfl, hy', hw'⟩
    refine .supply (sumFlags _ (hx.up held) hy' hv (hw'.trans (complement_congr _ hw)) .set d) ?_
    intro result
    refine .next (moveResult d (.at 0 rfl)) fun _ => ?_
    exact releaseAll (.append [_] rfl (.cons [] rfl .nil))
  | false =>
    have hresult : (if sub then BinOp.sub else .add).eval width v w =
        (Addition.sum ⟨width, sub, false, left, right, .keep, d⟩ cpu).1 := by
      have hcongr := Ir.addWithCarry_congr (c := sub) hv (complement_congr sub hw)
      refine Eq.trans ?_ (congrArg Prod.fst hcongr)
      cases sub with
      | true => exact Ir.sub_eq_addWithCarry v w width
      | false => exact Ir.add_eq_addWithCarry v w width
    have hwrite := binResult width (if sub then .sub else .add) d hx hy
    rw [hresult] at hwrite
    exact hwrite

lemma addSubImm (setFlags isShifted : Bool) (imm rn rd : Nat) :
    Computes ⟨cells, cpu, mem⟩ (addSubImm width sub setFlags isShifted imm rn rd) (Arrives ⟨cells,
      Addition.apply ⟨width, sub, false, .regOrSp rn,
        .imm (UInt64.ofNat (if isShifted then imm * 4096 else imm)),
        if setFlags then .set else .keep, if setFlags then .reg rd else .regOrSp rd⟩ cpu, mem⟩) := by
  unfold Compiler.addSubImm
  generalize UInt64.ofNat (if isShifted then imm * 4096 else imm) = value
  have hleft : cpu.readXOrSp rn &&& width.mask =
    (Summand.regOrSp rn).value width cpu &&& width.mask := rfl
  cases setFlags with
  | true =>
    have hright : (if sub then ~~~value &&& width.mask else value) &&& width.mask =
        (if sub then ~~~(Summand.imm value).value width cpu
          else (Summand.imm value).value width cpu) &&& width.mask := by
      cases sub with
      | true => exact width.and_mask_mask _
      | false => rfl
    refine .supply (sumFlags _ (has_gprOrSp _ rn) (.imm _) hleft hright .set (.reg rd)) fun _ => ?_
    refine .next (moveResult (.reg rd) (.at 0 rfl)) fun _ => ?_
    exact release [] rfl
  | false =>
    have hright : value &&& width.mask = (Summand.imm value).value width cpu &&& width.mask := rfl
    have hsum := addSub (d := .regOrSp rd) sub false
      (has_gprOrSp ⟨cells, cpu, mem⟩ rn) (.imm value) hleft hright
    simp only [Bool.false_eq_true, if_false] at hsum ⊢
    exact hsum

/-- A register is read whole and counts below a width. -/
lemma readX_and_mask_mask (n : Nat) :
    cpu.readX n .w64 &&& width.mask = (Summand.reg n).value width cpu &&& width.mask := by
  rw [Summand.value, ← cpu.readX_and_mask n width, width.and_mask_mask]

lemma addSubShifted (setFlags : Bool) {shift amount : Nat} (hshift : shift < 3)
    (hamount : amount < width.bits) (rm rn rd : Nat) :
    Computes ⟨cells, cpu, mem⟩ (addSubShifted width sub setFlags shift amount rm rn rd)
      (Arrives ⟨cells, Addition.apply ⟨width, sub, false, .reg rn, .shifted rm shift amount,
        if setFlags then .set else .keep, .reg rd⟩ cpu, mem⟩) := by
  refine .bind (shifted rm shift amount) ?_
  rintro ⟨y, ls⟩ _ ⟨held, w, rfl, rfl, hy, hw⟩
  have hright : w &&& width.mask =
      (Summand.shifted rm shift amount).value width cpu &&& width.mask := by
    rw [hw, eval_shiftOp hshift hamount, cpu.readX_and_mask]
    rfl
  refine .next (addSub (d := .reg rd) sub setFlags (has_gpr _ rn) hy (readX_and_mask_mask rn) hright) ?_
  intro _
  rw [← List.append_nil (held.map Cell.loc)]
  exact releaseAll (.append [] rfl .nil)

lemma addSubExtended (setFlags : Bool) {option amount : Nat} (hoption : option < 8)
    (hamount : amount ≤ 4) (rm rn rd : Nat) :
    Computes ⟨cells, cpu, mem⟩ (addSubExtended width sub setFlags option amount rm rn rd)
      (Arrives ⟨cells, Addition.apply ⟨width, sub, false, .regOrSp rn, .extended rm option amount,
        if setFlags then .set else .keep, if setFlags then .reg rd else .regOrSp rd⟩ cpu,
        mem⟩) := by
  refine .supply (extended (has_gpr _ rm) option amount) fun y => ?_
  have hdest : (if setFlags then dest rd else some (placeOrSp rd)) =
      destPlace (if setFlags then .reg rd else .regOrSp rd) := by
    cases setFlags <;> rfl
  have hleft : cpu.readXOrSp rn &&& width.mask =
    (Summand.regOrSp rn).value width cpu &&& width.mask := rfl
  rw [hdest]
  refine .next (addSub _ setFlags (has_gprOrSp _ rn) (.at 0 rfl) hleft ?_) fun _ => release [] rfl
  rw [eval_extend hoption hamount]
  rfl

lemma addSubCarry (setFlags : Bool) (rm rn rd : Nat) :
    Computes ⟨cells, cpu, mem⟩ (addSubCarry width sub setFlags rm rn rd)
      (Arrives ⟨cells, Addition.apply ⟨width, sub, true, .reg rn, .reg rm,
        if setFlags then .set else .keep, .reg rd⟩ cpu, mem⟩) := by
  refine .bind (complementIf sub (has_gpr _ rm)) ?_
  rintro ⟨y, ls⟩ _ ⟨held, w, rfl, rfl, hy, hw⟩
  have hright := hw.trans (complement_congr sub (readX_and_mask_mask rm))
  have hsum : ∀ flags d, Addition.sum ⟨width, sub, true, .reg rn, .reg rm, flags, d⟩ cpu =
      Cpu.addWithCarry (cpu.readX rn .w64) w (cpu.readFlag .c) width :=
    fun flags d => (Ir.addWithCarry_congr (readX_and_mask_mask rn) hright).symm
  have hcarry : IsCarry cpu (cpu.readFlag .c) (.place (.flag .c)) := .flag rfl
  cases setFlags with
  | true =>
    have hflags : Computes ⟨held ++ cells, cpu, mem⟩ (Compiler.addCarryFlags width _ _ _) _ :=
      addCarryFlags (has_gpr _ rn) hy hcarry
    rw [← hsum .set (.reg rd)] at hflags
    refine .supply hflags fun result => .next (moveResult (.reg rd) (.at 0 rfl)) fun _ => ?_
    exact releaseAll (.append [_] rfl (.cons [] rfl .nil))
  | false =>
    have hplain : Computes ⟨held ++ cells, cpu, mem⟩ (Compiler.addCarry width _ _ _) _ :=
      addCarry (has_gpr _ rn) hy hcarry.has
    rw [← hsum .keep (.reg rd)] at hplain
    refine .supply hplain fun result => .next (moveResult (.reg rd) (.at 0 rfl)) fun _ => ?_
    exact releaseAll (.append [_] rfl (.cons [] rfl .nil))

/-- A flag is kept if a condition holds. -/
lemma keepFlag {l : Local} {b : Bool} (hl : ⟨l, .i32, some b.toUInt64⟩ ∈ cells) (f : Cpu.Flag)
    (d : Bool) : Computes ⟨cells, cpu, mem⟩
      (Compiler.emit (.select (.flag f) (.place l) (.place (.flag f)) (const d.toNat)))
      (Arrives ⟨cells, cpu.keepFlagIf b f d, mem⟩) := by
  apply flag
  have hvalue : (if b.toUInt64 != 0 then (cpu.readFlag f).toUInt64 else UInt64.ofNat d.toNat) =
      (if b then cpu.readFlag f else d).toUInt64 := by
    rw [← toUInt64_eq_ofNat]
    cases b <;> rfl
  rw [← hvalue]
  exact writes_select (.scratch hl) (has_flag _ f) (.imm _)

/-- The flags of a sum are kept if a condition holds, and are those of a number otherwise. -/
lemma keepFlags {l : Local} {b : Bool} (hl : ⟨l, .i32, some b.toUInt64⟩ ∈ cells) (flags : Cpu.Nzcv)
    (nzcv : Nat) : Computes ⟨cells, cpu.writeNzcv flags, mem⟩
      ([(Cpu.Flag.n, 3), (.z, 2), (.c, 1), (.v, 0)].forM fun (flag, bit) => Compiler.emit
        (.select (.flag flag) (.place l) (.place (.flag flag)) (const (nzcv.testBit bit).toNat)))
      (Arrives ⟨cells, cpu.writeNzcv (if b then flags else .ofBits nzcv), mem⟩) := by
  rw [← cpu.keepFlagIf_nzcv]
  refine .next (keepFlag hl .n _) fun _ => .next (keepFlag hl .z _) fun _ => ?_
  exact .next (keepFlag hl .c _) fun _ => .next (keepFlag hl .v _) fun _ => skip

/-- The second operand of a comparison. -/
def compareSummand : Instr.CompareOperand → Summand
  | .imm n => .imm (UInt64.ofNat n)
  | .reg n => .reg n

lemma condCompare (second : Instr.CompareOperand) (cond : Cpu.Cond) (nzcv rn : Nat) :
    Computes ⟨cells, cpu, mem⟩ (condCompare width sub second cond nzcv rn)
      (Arrives ⟨cells, Addition.apply ⟨width, sub, false, .reg rn, compareSummand second,
        .setIf cond (.ofBits nzcv), .discarded⟩ cpu, mem⟩) := by
  -- the operand is read before the condition is evaluated
  obtain ⟨v, hv, hvalue⟩ : ∃ v, Has ⟨cells, cpu, mem⟩
      (match second with | .imm n => const n | .reg n => gpr n) v ∧
      v &&& width.mask = (compareSummand second).value width cpu &&& width.mask := by
    cases second with
    | imm n => exact ⟨_, .imm _, rfl⟩
    | reg n => exact ⟨_, has_gpr _ n, readX_and_mask_mask n⟩
  refine .supply (condHolds cond) fun holds => ?_
  refine .bind (complementIf sub (hv.up [_])) ?_
  rintro ⟨y, ls⟩ _ ⟨held, w, rfl, rfl, hy, hw⟩
  have hright := hw.trans (complement_congr sub hvalue)
  have hflags := sumFlags sub (has_gpr ⟨held ++ ⟨holds, .i32, _⟩ :: cells, cpu, mem⟩ rn) hy
    (readX_and_mask_mask rn) hright (.setIf cond (.ofBits nzcv)) .discarded
  refine .supply hflags fun result => ?_
  refine .next (keepFlags (List.mem_cons_of_mem _ (List.mem_append_right _
    (List.mem_cons_self ..))) _ nzcv) fun _ => ?_
  exact releaseAll (.append [_] rfl (.cons [] rfl (.cons [] rfl .nil)))

end Computes

/-! ### Words -/

section
variable {word : UInt32}

/-- The fields of an addition of a shifted register. -/
def shiftedFields : List Encoding.Field :=
  [⟨"sf", 31, 1, none⟩, ⟨"op", 30, 1, none⟩, ⟨"S", 29, 1, none⟩,
    ⟨"shift", 22, 2, some (.exclude [3])⟩, ⟨"Rm", 16, 5, none⟩, ⟨"imm6", 10, 6, none⟩,
    ⟨"Rn", 5, 5, none⟩, ⟨"Rd", 0, 5, none⟩]

lemma toPattern_shifted : (Instr.Form.compiled "add/sub shifted register"
    "sf:1 op:1 S:1 01011 shift:2 0 Rm:5 imm6:6 Rn:5 Rd:5" Instr.Form.addSubShifted
    [("shift", .exclude [3])]).toPattern = .ok ⟨0x1f200000, 0x0b000000, shiftedFields⟩ :=
  Instr.Form.toPattern_of_chars (P := fun p => p = .ok _) rfl rfl

lemma admits_shifted (word : UInt32) :
    shiftedFields.all (·.admits word) = true ↔ bitsAt word 22 2 ≠ 3 := by
  simp [shiftedFields, Encoding.Field.admits, Encoding.Constraint.admits, Encoding.Field.extract,
    bitsAt]

lemma read_shifted (word : UInt32) (sf op s shift rm amount rn rd : Nat) :
    Instr.Form.addSubShifted ⟨word,
    [("sf", sf), ("op", op), ("S", s), ("shift", shift), ("Rm", rm), ("imm6", amount), ("Rn", rn),
      ("Rd", rd)]⟩ = if Width.ofSizeBit sf == .w64 || amount < 32 then
        .ok (.addSubShifted (.ofSizeBit sf) (op == 1) (s == 1) shift amount rm rn rd)
      else .error .unallocated := by
  show ((Instr.Form.require (Width.ofSizeBit sf == .w64 || amount < 32) >>= fun _ => .ok amount) >>=
    fun amount => .ok (Instr.addSubShifted (.ofSizeBit sf) (op == 1) (s == 1) shift amount rm rn rd))
      = _
  rw [bind_assoc, require_bind]
  rfl

lemma read_extended (word : UInt32) (sf op s rm option amount rn rd : Nat) :
    Instr.Form.addSubExtended ⟨word,
    [("sf", sf), ("op", op), ("S", s), ("Rm", rm), ("option", option), ("imm3", amount), ("Rn", rn),
      ("Rd", rd)]⟩ = if amount ≤ 4 then
        .ok (.addSubExtended (.ofSizeBit sf) (op == 1) (s == 1) option amount rm rn rd)
      else .error .unallocated := by
  show (Instr.Form.require (amount ≤ 4) >>= fun _ =>
    .ok (Instr.addSubExtended (.ofSizeBit sf) (op == 1) (s == 1) option amount rm rn rd)) = _
  rw [require_bind]
  simp only [decide_eq_true_eq]

/-- A word compiles to an addition, or is refused. -/
def CompilesTo (word : UInt32) : Option Addition → Prop
  | some a => Performs (lowerWord word) a.apply
  | none => lowerWord word = invalid

lemma lowerWord_shifted (h : AdditionClass.shifted.Encodes word) :
    CompilesTo word (AdditionClass.shifted.read? word) := by
  have hbound : bitsAt word 22 2 < 2 ^ 2 := Instr.bitsAt_lt word 22 2
  have hread := read_shifted word (bitsAt word 31 1) (bitsAt word 30 1)
    (bitsAt word 29 1) (bitsAt word 22 2) (bitsAt word 16 5) (bitsAt word 10 6) (bitsAt word 5 5)
    (bitsAt word 0 5)
  have hamount : (Width.ofSizeBit (bitsAt word 31 1) == .w64 || bitsAt word 10 6 < 32) = true ↔
      bitsAt word 10 6 < (Width.ofSizeBit (bitsAt word 31 1)).bits := by
    exact allocated_iff (Instr.bitsAt_lt word 10 6)
  by_cases hshift : bitsAt word 22 2 < 3
  · have hlower := lowerWord_read (i := 39) rfl toPattern_shifted h
      ((admits_shifted word).2 (Nat.ne_of_lt hshift)) hread
    by_cases hlt : bitsAt word 10 6 < (Width.ofSizeBit (bitsAt word 31 1)).bits
    · simp only [AdditionClass.read?, if_pos (And.intro hshift hlt), CompilesTo]
      rw [hlower, if_pos (hamount.2 hlt)]
      exact performs_of_computes fun cpu mem => .addSubShifted _ hshift hlt _ _ _
    · simp only [AdditionClass.read?, if_neg (fun hok => hlt (And.right hok)), CompilesTo]
      rw [hlower, if_neg fun hok => hlt (hamount.1 hok)]
      rfl
  · have hall : shiftedFields.all (·.admits word) = false := by
      rw [Bool.eq_false_iff, Ne, admits_shifted]
      omega
    simp only [AdditionClass.read?, if_neg (fun hok => hshift (And.left hok)), CompilesTo]
    exact lowerWord_refused (i := 39) rfl toPattern_shifted h hall

lemma lowerWord_extended (h : AdditionClass.extended.Encodes word) :
    CompilesTo word (AdditionClass.extended.read? word) := by
  have hoption : bitsAt word 13 3 < 2 ^ 3 := Instr.bitsAt_lt word 13 3
  have hread := read_extended word (bitsAt word 31 1) (bitsAt word 30 1)
    (bitsAt word 29 1) (bitsAt word 16 5) (bitsAt word 13 3) (bitsAt word 10 3) (bitsAt word 5 5)
    (bitsAt word 0 5)
  have hlower := lowerWord_read (i := 40) rfl
    (Instr.Form.toPattern_of_chars (P := fun p => p = .ok _) rfl rfl) h rfl hread
  by_cases hle : bitsAt word 10 3 ≤ 4
  · simp only [AdditionClass.read?, if_pos hle, CompilesTo]
    rw [hlower, if_pos hle]
    exact performs_of_computes fun cpu mem => .addSubExtended _ hoption hle _ _ _
  · simp only [AdditionClass.read?, if_neg hle, CompilesTo]
    rw [hlower, if_neg hle]
    rfl

/-- A word of a class without reserved words is compiled to the addition that it asks for. -/
lemma lowerWord_allocated (c : AdditionClass) (h : c.Encodes word)
    (hc : c ≠ .shifted ∧ c ≠ .extended) : CompilesTo word (c.read? word) := by
  cases c with
  | immediate =>
    show Performs (lowerWord word) _
    rw [lowerWord_read (i := 33) rfl (Instr.Form.toPattern_of_chars (P := fun p => p = .ok _) rfl rfl) h
      rfl rfl]
    exact performs_of_computes fun cpu mem => .addSubImm _ _ _ _ _
  | shifted => exact absurd rfl hc.1
  | extended => exact absurd rfl hc.2
  | carry =>
    show Performs (lowerWord word) _
    rw [lowerWord_read (i := 41) rfl (Instr.Form.toPattern_of_chars (P := fun p => p = .ok _) rfl rfl) h
      rfl rfl]
    exact performs_of_computes fun cpu mem => .addSubCarry _ _ _ _
  | compareReg =>
    show Performs (lowerWord word) _
    rw [lowerWord_read (i := 42) rfl (Instr.Form.toPattern_of_chars (P := fun p => p = .ok _) rfl rfl) h
      rfl rfl]
    exact performs_of_computes fun cpu mem => .condCompare (.reg _) _ _ _
  | compareImm =>
    show Performs (lowerWord word) _
    rw [lowerWord_read (i := 43) rfl (Instr.Form.toPattern_of_chars (P := fun p => p = .ok _) rfl rfl) h
      rfl rfl]
    exact performs_of_computes fun cpu mem => .condCompare (.imm _) _ _ _

/-- A word that adds is compiled to the addition that it asks for, and a reserved one is refused. -/
theorem lowerWord_addition (c : AdditionClass) (word : UInt32) (h : c.Encodes word) :
    match c.read? word with
    | some a => Performs (lowerWord word) a.apply
    | none => ∀ b : Block, lowerWord word b = .error (.invalidEncoding b.pc b.word) b := by
  have hword : CompilesTo word (c.read? word) := by
    cases c with
    | shifted => exact lowerWord_shifted h
    | extended => exact lowerWord_extended h
    | _ => exact lowerWord_allocated _ h ⟨nofun, nofun⟩
  revert hword
  cases c.read? word with
  | some a => exact id
  | none =>
    intro hword b
    rw [show lowerWord word = invalid from hword]
    rfl

/-- Adding two registers with the flags set. -/
theorem lowerWord_addition_flags : AdditionClass.shifted.Encodes 0xab020020 ∧
    Performs (lowerWord 0xab020020)
      (Addition.apply ⟨.w64, false, false, .reg 1, .shifted 2 0 0, .set, .reg 0⟩) :=
  ⟨by decide, lowerWord_addition .shifted 0xab020020 (by decide)⟩

end

end Dynarec.Compiler
