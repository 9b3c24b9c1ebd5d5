import Dynarec.Proofs.Compiler.Instructions
import Dynarec.Proofs.Compiler.Pieces

/-!
# Compiled accesses to system registers

The binding of a system register is looked up while its access is compiled, and the operations go straight
to the words of the state. They do what the accessors of the processor do at run time, for every selector,
general register and state. An immediate that is written to a processor field changes this field only.
-/

namespace Dynarec.Instr

open Cpu (State)

/-- The bits of `DAIF` that an immediate of four bits names. -/
def namedMasks (imm : Nat) : UInt64 := UInt64.ofNat imm <<< 6

/-- Write an immediate to a processor field: its lowest bit selects the stack pointer, and its bits set or
clear the masks of exceptions that they name. -/
def PstateField.apply (field : PstateField) (imm : Nat) (s : State) : State :=
  match field with
  | .spsel => { s with spsel := (imm.testBit 0).toUInt64 }
  | .daifSet => { s with daif := s.daif ||| namedMasks imm }
  | .daifClr => { s with daif := s.daif &&& ~~~namedMasks imm }

/-- The state after an immediate is written to a processor field: masks that do not exist are clear. -/
def PstateField.write (field : PstateField) (imm : Nat) (s : State) : State :=
  match field with
  | .spsel => field.apply imm s
  | .daifSet | .daifClr => s.writeDaif (field.apply imm s).daif

/-- The fixed bits of a write to a processor field. -/
def PstateField.fixed : PstateField → UInt32
  | .spsel => 0xd50040bf
  | .daifSet => 0xd50340df
  | .daifClr => 0xd50340ff

/-- The selector of the system register that a word accesses. -/
def selectorOf (word : UInt32) : Nat :=
  Cpu.SysReg.pack (2 + bitsAt word 19 1) (bitsAt word 16 3) (bitsAt word 12 4) (bitsAt word 8 4)
    (bitsAt word 5 3)

end Dynarec.Instr

namespace Dynarec.Compiler

open Bits (bit)
open Cpu (Nzcv)
open Cpu.SysReg (Binding daifMask)
open Instr (PstateField bitsAt selectorOf namedMasks)
open Ir (Op BinOp Place Operand Local Ty)

variable {cells : List Cell} {cpu : Cpu.State} {mem : Memory} {x : Operand} {v : UInt64}

/-! ### Values -/

/-- The lowest bit of a word as a truth value. -/
lemma and_one_eq (v : UInt64) : v &&& 1 = (bit v 0).toUInt64 := by
  apply Bits.eq_of_bit
  intro i _
  have hone : bit 1 i = decide (i = 0) := by
    rw [show (1 : UInt64) = true.toUInt64 from rfl, Bits.bit_toUInt64, Bool.and_true]
  rw [Bits.bit_and, hone, Bits.bit_toUInt64]
  by_cases hi : i = 0 <;> simp [hi]

lemma toUInt64_beq_one (b : Bool) : (b.toUInt64 == 1) = b := by cases b <;> rfl

lemma eval_and_w64 (v w : UInt64) : BinOp.eval .and .w64 v w = v &&& w := by
  simp only [BinOp.eval, Width.and_mask_w64]

/-- A bit that is shifted down and cut off. -/
lemma shifted_bit {n : Nat} (hn : n < 64) (v : UInt64) :
    BinOp.eval .and .w64 (BinOp.eval .shrU .w64 v (UInt64.ofNat n)) 1 = (bit v n).toUInt64 := by
  rw [eval_and_w64, and_one_eq, BinOp.bit_shrU (w := .w64) hn]
  simp [Width.bits, hn]

/-- The level in the bits of `CurrentEL`. -/
lemma shl_level {el : Nat} (h : el < 4) :
    BinOp.eval .shl .w64 (UInt64.ofNat el) 2 = UInt64.ofNat (el * 4) := by
  obtain rfl | rfl | rfl | rfl : el = 0 ∨ el = 1 ∨ el = 2 ∨ el = 3 := by omega
  all_goals rfl

/-- Four flags that are added at their bits. -/
lemma packed_flags (f : Nzcv) :
    BinOp.eval .or .w64 (BinOp.eval .or .w64 (BinOp.eval .or .w64 (BinOp.eval .or .w64 (0 &&& Width.mask .w64)
      (BinOp.eval .shl .w64 f.n.toUInt64 (UInt64.ofNat 31)))
      (BinOp.eval .shl .w64 f.z.toUInt64 (UInt64.ofNat 30)))
      (BinOp.eval .shl .w64 f.c.toUInt64 (UInt64.ofNat 29)))
      (BinOp.eval .shl .w64 f.v.toUInt64 (UInt64.ofNat 28)) = UInt64.ofNat (f.toBits <<< 28) := by
  obtain ⟨n, z, c, v⟩ := f
  cases n <;> cases z <;> cases c <;> cases v <;> rfl

/-- The flags in the top bits of the low half of a word. -/
lemma ofBits_shiftRight (v : UInt64) :
    Nzcv.ofBits (v >>> 28).toNat = ⟨bit v 31, bit v 30, bit v 29, bit v 28⟩ := by
  have hbit : ∀ n, (v >>> 28).toNat.testBit n = bit v (28 + n) := fun n =>
    Bits.bit_shiftRight (n := 28) (by decide)
  simp only [Nzcv.ofBits, hbit]

namespace Computes

/-! ### Accesses through bindings -/

/-- A flag is written from a bit of a value, which is shifted down in a held local. -/
lemma unpackFlag {t : Local} {o : Option UInt64} (f : Cpu.Flag) {n : Nat} (hn : n < 64)
    (hx : Has ⟨⟨t, .i64, o⟩ :: cells, cpu, mem⟩ x v) :
    Computes ⟨⟨t, .i64, o⟩ :: cells, cpu, mem⟩
      (Compiler.bin t .shrU .w64 x (const n) >>= fun _ =>
        Compiler.bin (.flag f) .and .w64 (.place t) (.imm 1))
      (Arrives ⟨⟨t, .i64, some (BinOp.eval .shrU .w64 v (UInt64.ofNat n))⟩ :: cells,
        cpu.writeFlag f (bit v n), mem⟩) := by
  refine .next (bin [] rfl hx (.imm _)) fun _ => flag ?_
  rw [← shifted_bit hn]
  exact writes_bin _ (.at 0 rfl) (.imm 1)

/-- The flags are written from the top bits of the low half of a value that does not hang on them. -/
lemma unpackFlags {t : Local} {o : Option UInt64}
    (hx : ∀ o flags, Has ⟨⟨t, .i64, o⟩ :: cells, { cpu with flags }, mem⟩ x v) :
    Computes ⟨⟨t, .i64, o⟩ :: cells, cpu, mem⟩ (unpackFlags t x) (Arrives
      ⟨⟨t, .i64, some (BinOp.eval .shrU .w64 v (UInt64.ofNat 28))⟩ :: cells,
        cpu.writeNzcv (.ofBits (v >>> 28).toNat), mem⟩) := by
  rw [ofBits_shiftRight]
  refine .next (unpackFlag .n (by decide) (hx _ cpu.flags)) fun _ => ?_
  refine .next (unpackFlag .z (by decide) (hx _ _)) fun _ => ?_
  refine .next (unpackFlag .c (by decide) (hx _ _)) fun _ => ?_
  exact .next (unpackFlag .v (by decide) (hx _ _)) fun _ => skip

/-- A flag is added to a sum of flags at its bit. -/
lemma packFlag {t sum : Local} {o : Option UInt64} {w : UInt64} (f : Cpu.Flag) (n : Nat) :
    Computes ⟨⟨t, .i64, o⟩ :: ⟨sum, .i64, some w⟩ :: cells, cpu, mem⟩
      (Compiler.bin t .shl .w64 (.place (.flag f)) (const n) >>= fun _ =>
        Compiler.bin sum .or .w64 (.place sum) (.place t))
      (Arrives ⟨⟨t, .i64, some (BinOp.eval .shl .w64 (cpu.readFlag f).toUInt64 (UInt64.ofNat n))⟩ ::
        ⟨sum, .i64, some (BinOp.eval .or .w64 w
          (BinOp.eval .shl .w64 (cpu.readFlag f).toUInt64 (UInt64.ofNat n)))⟩ :: cells, cpu, mem⟩) :=
  .next (bin [] rfl (has_flag _ f) (.imm _)) fun _ => bin [_] rfl (.at 1 rfl) (.at 0 rfl)

lemma spsel_ne (l : Local) : Place.spsel ≠ .scratch l := nofun

lemma daif_ne (l : Local) : Place.daif ≠ .scratch l := nofun

/-- A general register is written with what is read through a binding. -/
lemma readBinding (rt : Nat) (b : Binding) : Computes ⟨cells, cpu, mem⟩ (readBinding (.x rt) b)
    (Arrives ⟨cells, cpu.writeX rt .w64 (cpu.readBinding b), mem⟩) := by
  cases b with
  | const value => exact moveX rt (.imm value)
  | backed slot => exact moveX rt (.place (p := .sys slot) nofun)
  | daif => exact moveX rt (.place daif_ne)
  | stackPointer el => exact moveX rt (.place (p := .spEl el) nofun)
  | elr el => exact moveX rt (.place (p := .elr (.level el)) nofun)
  | spsr el => exact moveX rt (.place (p := .spsr (.level el)) nofun)
  | spsel =>
    have hvalue : cpu.readPlace .spsel = cpu.readBinding .spsel := by
      show (cpu.spsel &&& 1 == 1).toUInt64 = cpu.spsel &&& 1
      rw [and_one_eq, toUInt64_beq_one]
    rw [← hvalue]
    exact moveX rt (.place spsel_ne)
  | currentEl =>
    have hlevel : cpu.readEl < 4 := Nat.mod_lt _ (by decide)
    rw [show cpu.readBinding .currentEl = _ from (shl_level hlevel).symm]
    exact binDest rt (.place (p := .el) nofun) (.imm 2)
  | nzcv =>
    refine .alloc _ fun sum => .alloc _ fun t => ?_
    refine .next (write [_] rfl (writes_mov (.imm 0)) (Ty.and_mask_i64 _)) fun _ => ?_
    refine .next (.next (packFlag .n 31) fun _ => .next (packFlag .z 30) fun _ =>
      .next (packFlag .c 29) fun _ => .next (packFlag .v 28) fun _ => skip) fun _ => ?_
    refine .next (moveX rt (.at 1 rfl)) fun _ => .next (release [] rfl) fun _ => ?_
    rw [show cpu.readBinding .nzcv = _ from (packed_flags cpu.readNzcv).symm]
    exact release [] rfl

/-- A place of the processor is written with a value. -/
lemma movePlace {p : Place} (hp : ∀ l, p ≠ .scratch l) (hx : Has ⟨cells, cpu, mem⟩ x v) :
    Computes ⟨cells, cpu, mem⟩ (move (some p) x .w64) (Arrives ⟨cells, cpu.writePlace p v, mem⟩) := by
  have hmove : Computes ⟨cells, cpu, mem⟩ (Compiler.emit (.mov .w64 p x)) _ := place hp (writes_mov hx)
  rwa [Width.and_mask_w64] at hmove

/-- What is written through a binding is the value of an operand that does not hang on the flags. -/
lemma writeBinding (b : Binding) (hx : ∀ cells flags, Has ⟨cells, { cpu with flags }, mem⟩ x v) :
    Computes ⟨cells, cpu, mem⟩ (writeBinding x b) (Arrives ⟨cells, cpu.writeBinding v b, mem⟩) := by
  have hvalue : Has ⟨cells, cpu, mem⟩ x v := hx cells cpu.flags
  cases b with
  | const value => exact skip
  | currentEl => exact skip
  | nzcv => exact .alloc _ fun t => .next (unpackFlags fun _ => hx _) fun _ => release [] rfl
  | backed slot => exact movePlace (p := .sys slot) nofun hvalue
  | stackPointer el => exact movePlace (p := .spEl el) nofun hvalue
  | elr el => exact movePlace (p := .elr (.level el)) nofun hvalue
  | spsr el => exact movePlace (p := .spsr (.level el)) nofun hvalue
  | spsel =>
    have hstate : cpu.writePlace .spsel (BinOp.eval .and .w64 v 1) = cpu.writeBinding v .spsel := by
      show ({ cpu with spsel := (BinOp.eval .and .w64 v 1 &&& 1 == 1).toUInt64 } : Cpu.State) = _
      rw [eval_and_w64, UInt64.and_assoc, UInt64.and_self, and_one_eq, toUInt64_beq_one, ← and_one_eq]
      rfl
    rw [← hstate]
    exact binTo spsel_ne hvalue (.imm 1)
  | daif =>
    have hstate : cpu.writePlace .daif (BinOp.eval .and .w64 v daifMask) =
        cpu.writeBinding v .daif := by
      show ({ cpu with daif := BinOp.eval .and .w64 v daifMask &&& daifMask } : Cpu.State) = _
      rw [eval_and_w64, UInt64.and_assoc, UInt64.and_self]
      rfl
    rw [← hstate]
    exact binTo daif_ne hvalue (.imm _)

/-! ### The instructions -/

lemma readSysReg (selector rt : Nat) : Computes ⟨cells, cpu, mem⟩ (readSysReg selector rt)
    (Arrives ⟨cells, cpu.writeX rt .w64 (cpu.readSysReg selector), mem⟩) := by
  unfold Compiler.readSysReg Cpu.State.readSysReg
  by_cases hrt : rt = 31
  · rw [show dest rt = none from if_pos hrt, cpu.writeX_of_le (Nat.le_of_eq hrt.symm)]
    exact skip
  · rw [show dest rt = some (.x rt) from if_neg hrt]
    cases (Cpu.SysReg.lookup selector).bind (·.read) with
    | none => exact moveX rt (.imm 0)
    | some b => exact readBinding rt b

lemma writeSysReg (selector rt : Nat) : Computes ⟨cells, cpu, mem⟩ (writeSysReg selector rt)
    (Arrives ⟨cells, cpu.writeSysReg selector (cpu.readX rt .w64), mem⟩) := by
  unfold Compiler.writeSysReg Cpu.State.writeSysReg
  cases (Cpu.SysReg.lookup selector).bind (·.write) with
  | none => exact skip
  | some b => exact writeBinding b fun _ _ => has_gpr _ rt

lemma writePstate (field : PstateField) (imm : Nat) : Computes ⟨cells, cpu, mem⟩ (writePstate field imm)
    (Arrives ⟨cells, field.write imm cpu, mem⟩) := by
  cases field with
  | spsel =>
    have hbit : (UInt64.ofNat (imm % 2) &&& 1 == 1) = imm.testBit 0 := by
      rw [Nat.testBit_zero]
      obtain h | h : imm % 2 = 0 ∨ imm % 2 = 1 := by omega
      all_goals
        rw [h]
        rfl
    have hstate : cpu.writePlace .spsel (UInt64.ofNat (imm % 2)) = PstateField.spsel.apply imm cpu := by
      show cpu.writeSpsel (UInt64.ofNat (imm % 2) &&& 1 == 1) = _
      rw [hbit]
      rfl
    show Computes _ _ (Arrives ⟨cells, PstateField.spsel.apply imm cpu, mem⟩)
    rw [← hstate]
    exact movePlace spsel_ne (.imm _)
  | daifSet =>
    have hvalue : BinOp.eval .or .w64 cpu.daif (namedMasks imm) = cpu.daif ||| namedMasks imm := by
      simp only [BinOp.eval, Width.and_mask_w64]
    show Computes _ _ (Arrives ⟨cells, cpu.writeDaif (cpu.daif ||| namedMasks imm), mem⟩)
    rw [← hvalue]
    exact binTo daif_ne (.place daif_ne) (.imm _)
  | daifClr =>
    have hstate : cpu.writePlace .daif (BinOp.eval .and .w64 cpu.daif (~~~namedMasks imm &&& daifMask)) =
        cpu.writeDaif (cpu.daif &&& ~~~namedMasks imm) := by
      show ({ cpu with daif := BinOp.eval .and .w64 cpu.daif _ &&& daifMask } : Cpu.State) = _
      rw [eval_and_w64, ← UInt64.and_assoc, UInt64.and_assoc _ daifMask, UInt64.and_self]
      rfl
    show Computes _ _ (Arrives ⟨cells, cpu.writeDaif (cpu.daif &&& ~~~namedMasks imm), mem⟩)
    rw [← hstate]
    exact binTo daif_ne (.place daif_ne) (.imm _)

end Computes

/-! ### Words -/

section
variable {word : UInt32}

lemma lowerWord_read_sysReg (h : word &&& 0xfff00000 = 0xd5300000) : Performs (lowerWord word) fun s =>
    s.writeX (bitsAt word 0 5) .w64 (s.readSysReg (selectorOf word)) := by
  rw [lowerWord_read (i := 24) rfl (Instr.Form.toPattern_of_chars (P := fun p => p = .ok _) rfl rfl) h
    rfl rfl]
  exact performs_of_computes fun cpu mem => .readSysReg (selectorOf word) (bitsAt word 0 5)

lemma lowerWord_write_sysReg (h : word &&& 0xfff00000 = 0xd5100000) : Performs (lowerWord word) fun s =>
    s.writeSysReg (selectorOf word) (s.readX (bitsAt word 0 5) .w64) := by
  rw [lowerWord_read (i := 23) rfl (Instr.Form.toPattern_of_chars (P := fun p => p = .ok _) rfl rfl) h
    rfl rfl]
  exact performs_of_computes fun cpu mem => .writeSysReg (selectorOf word) (bitsAt word 0 5)

/-- An immediate names masks that exist. -/
lemma namedMasks_and_daifMask {imm : Nat} (h : imm < 16) : namedMasks imm &&& daifMask = namedMasks imm := by
  have hall : ∀ n : Fin 16, namedMasks n &&& daifMask = namedMasks n := by decide
  exact hall ⟨imm, h⟩

lemma or_and_mask (v w mask : UInt64) : (v ||| w) &&& mask = v &&& mask ||| w &&& mask :=
  UInt64.toBitVec_inj.1 BitVec.and_or_distrib_right

/-- A word without bits outside a mask is not changed by the mask. -/
lemma and_mask_of_within {v mask : UInt64} (h : v &&& ~~~mask = 0) : v &&& mask = v := by
  apply Bits.eq_of_bit
  intro i hi
  have hbit : bit (v &&& ~~~mask) i = false := by rw [h, Bits.bit_zero]
  rw [Bits.bit_and, Bits.bit_not, decide_eq_true hi, Bool.true_and] at hbit
  rw [Bits.bit_and]
  cases hv : bit v i <;> simp_all

/-- In a state whose masks of exceptions exist, an immediate changes the named masks only. -/
lemma write_eq_apply (field : PstateField) {imm : Nat} (himm : imm < 16) {s : Cpu.State}
    (hs : s.daif &&& ~~~daifMask = 0) : field.write imm s = field.apply imm s := by
  have hdaif : s.daif &&& daifMask = s.daif := and_mask_of_within hs
  cases field with
  | spsel => rfl
  | daifSet =>
    have hset : (s.daif ||| namedMasks imm) &&& daifMask = s.daif ||| namedMasks imm := by
      rw [or_and_mask, hdaif, namedMasks_and_daifMask himm]
    show ({ s with daif := (s.daif ||| namedMasks imm) &&& daifMask } : Cpu.State) = _
    rw [hset]
    rfl
  | daifClr =>
    have hclear : s.daif &&& ~~~namedMasks imm &&& daifMask = s.daif &&& ~~~namedMasks imm := by
      rw [UInt64.and_assoc, UInt64.and_comm _ daifMask, ← UInt64.and_assoc, hdaif]
    show ({ s with daif := s.daif &&& ~~~namedMasks imm &&& daifMask } : Cpu.State) = _
    rw [hclear]
    rfl

lemma lowerWord_pstate (field : PstateField) (h : word &&& 0xfffff0ff = field.fixed) :
    Performs (lowerWord word) (field.write (bitsAt word 8 4)) := by
  have hlower : lowerWord word = writePstate field (bitsAt word 8 4) := by
    cases field with
    | spsel =>
      exact lowerWord_read (i := 19) rfl
        (Instr.Form.toPattern_of_chars (P := fun p => p = .ok _) rfl rfl) h rfl rfl
    | daifSet =>
      exact lowerWord_read (i := 20) rfl
        (Instr.Form.toPattern_of_chars (P := fun p => p = .ok _) rfl rfl) h rfl rfl
    | daifClr =>
      exact lowerWord_read (i := 21) rfl
        (Instr.Form.toPattern_of_chars (P := fun p => p = .ok _) rfl rfl) h rfl rfl
  rw [hlower]
  exact performs_of_computes fun cpu mem => .writePstate field (bitsAt word 8 4)

/-- Moves between system registers and general ones do what the accessors of the processor do, in every
state, and an immediate written to a processor field changes this field only, in every state whose masks
of exceptions exist. -/
theorem lowerWord_sysReg (word : UInt32) :
    (word &&& 0xfff00000 = 0xd5300000 → Performs (lowerWord word) fun s =>
      s.writeX (bitsAt word 0 5) .w64 (s.readSysReg (selectorOf word))) ∧
    (word &&& 0xfff00000 = 0xd5100000 → Performs (lowerWord word) fun s =>
      s.writeSysReg (selectorOf word) (s.readX (bitsAt word 0 5) .w64)) ∧
    ∀ field : PstateField, word &&& 0xfffff0ff = field.fixed →
      Performs (lowerWord word) (field.write (bitsAt word 8 4)) ∧
      ∀ s : Cpu.State, s.daif &&& ~~~daifMask = 0 →
        field.write (bitsAt word 8 4) s = field.apply (bitsAt word 8 4) s := by
  refine ⟨lowerWord_read_sysReg, lowerWord_write_sysReg, fun field h => ⟨lowerWord_pstate field h, ?_⟩⟩
  intro s hs
  exact write_eq_apply field (Instr.bitsAt_lt word 8 4) hs

/-- Reading the flags, writing them, and masking interrupts in the state after reset. -/
theorem lowerWord_sysReg_flags :
    Performs (lowerWord 0xd53b4203) (fun s => s.writeX 3 .w64 (s.readSysReg 0xda10)) ∧
    Performs (lowerWord 0xd51b4203) (fun s => s.writeSysReg 0xda10 (s.readX 3 .w64)) ∧
    Performs (lowerWord 0xd50342df) (PstateField.daifSet.write 2) ∧
    PstateField.daifSet.write 2 .reset = PstateField.daifSet.apply 2 .reset := by
  have hset := (lowerWord_sysReg 0xd50342df).2.2 .daifSet rfl
  exact ⟨(lowerWord_sysReg 0xd53b4203).1 rfl, (lowerWord_sysReg 0xd51b4203).2.1 rfl, hset.1,
    hset.2 .reset (by decide)⟩

end

end Dynarec.Compiler
