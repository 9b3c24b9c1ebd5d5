import Dynarec.Proofs.Compiler.Allocated
import Dynarec.Proofs.Interp.Effects

/-!
# Words with the same text

What the text of an instruction leaves out is of no account when the instruction is compiled: the instruction and
its plain form become the same operations, but for a constant that gets into a register in another way. So words
with the same text do the same, whichever of the names of an operation the text has chosen.
-/

namespace Dynarec.Compiler

open Instr
open Interp (Assigns SameEffect assigns_mov assigns_bin)
open Ir (Op BinOp Place)

/-! ### Plain forms -/

/-- Two pieces of the compiler do the same, or each emits one operation, both with the same effect. -/
inductive Interchangeable : EmitM Unit → EmitM Unit → Prop where
  | same (m : EmitM Unit) : Interchangeable m m
  | emit {op op' : Op} : SameEffect [op] [op'] → Interchangeable (emit op) (emit op')

namespace Interchangeable

variable {m m' m'' : EmitM Unit}

lemma of_eq (h : m = m') : Interchangeable m m' := h ▸ same m

lemma symm (h : Interchangeable m m') : Interchangeable m' m := by
  cases h with
  | same => exact same m
  | emit h => exact emit h.symm

lemma trans (h : Interchangeable m m') (h' : Interchangeable m' m'') : Interchangeable m m'' := by
  cases h with
  | same => exact h'
  | @emit op op' h =>
    generalize hm : Compiler.emit op' = m' at h'
    cases h' with
    | same => exact hm ▸ emit h
    | @emit op₁ op'' h' =>
      have hop : op' = op₁ := by
        have hrun := congrFun hm (.start 0 .empty (.ofSize 0))
        injection hrun with _ hblock
        injection hblock with _ _ hops
        exact (Array.push_eq_push.1 hops).1
      subst hop
      exact emit (h.trans h')

/-- Moves of constants that are the same once they are cut. -/
lemma move {width : Width} {v v' : UInt64} (dst : Option Place) (h : v &&& width.mask = v' &&& width.mask) :
    Interchangeable (move dst (.imm v) width) (move dst (.imm v') width) := by
  cases dst with
  | none => exact same _
  | some dst => exact emit ((assigns_mov width dst v).sameEffect (h ▸ assigns_mov width dst v'))

end Interchangeable

lemma lower_constant (width : Width) (value : UInt64) (rd : Nat) :
    lower (Assembler.constant width value rd) = move (dest rd) (.imm (value &&& width.mask)) width := by
  have hvalue : UInt64.ofNat (value &&& width.mask).toNat <<< UInt64.ofNat 0 = value &&& width.mask := by
    rw [UInt64.ofNat_toNat]
    exact UInt64.shiftLeft_zero
  rw [Assembler.constant, lower, moveWide, hvalue]
  cases dest rd <;> rfl

lemma lower_plainLogicalImm (width : Width) (op : LogicOp) (imm : LogicalImmediate) (rn rd : Nat) :
    Interchangeable (lower (plainLogicalImm width op imm rn rd)) (lower (.logicalImm width op imm rn rd)) := by
  unfold plainLogicalImm
  split
  · next h =>
    obtain ⟨rfl, rfl, -, hrd⟩ := h
    have hplace : placeOrSp rd = .x rd := if_neg hrd
    have hdest : dest rd = some (.x rd) := if_neg hrd
    have hor : BinOp.eval .or width 0 imm.value = imm.value &&& width.mask &&& width.mask := by
      simp [BinOp.eval]
    rw [lower_constant, hdest]
    show Interchangeable _ (bin (placeOrSp rd) .or width (.imm 0) (.imm imm.value))
    rw [hplace]
    exact .emit ((assigns_mov _ _ _).sameEffect (hor ▸ assigns_bin .or _ _ _ _))
  · exact .same _

lemma lower_plainMoveWide (width : Width) (op : MoveWideOp) (shift imm rd : Nat) :
    Interchangeable (lower (plainMoveWide width op shift imm rd)) (lower (.moveWide width op shift imm rd)) := by
  have hconst : ∀ value : UInt64, Interchangeable (lower (Assembler.constant width value rd))
      (move (dest rd) (.imm value) width) := fun value => by
    rw [lower_constant]
    exact .move _ (width.and_mask_mask value)
  cases op with
  | movk => exact .same _
  | movz =>
    have hlower : lower (.moveWide width .movz shift imm rd) =
        move (dest rd) (.imm (UInt64.ofNat imm <<< UInt64.ofNat shift)) width := by
      rw [lower, moveWide]
      cases dest rd <;> rfl
    unfold plainMoveWide
    dsimp only
    split
    · exact hlower ▸ hconst _
    · exact .same _
  | movn =>
    have hlower : lower (.moveWide width .movn shift imm rd) =
        move (dest rd) (.imm (~~~(UInt64.ofNat imm <<< UInt64.ofNat shift) &&& width.mask)) width := by
      rw [lower, moveWide]
      cases dest rd <;> rfl
    unfold plainMoveWide
    dsimp only
    split
    · exact .of_eq ((lower_constant _ _ _).trans hlower.symm)
    · exact .same _

lemma lookup_kept (selector : Nat) : Cpu.SysReg.lookup (kept selector) = Cpu.SysReg.lookup selector := by
  unfold kept
  split
  · rfl
  · next h =>
    rw [Option.not_isSome_iff_eq_none.1 h]
    rfl

lemma transferAt_target (transfer : Transfer) (size : AccessSize) (rt : Nat) :
    transferAt transfer size (target transfer rt) = transferAt transfer size rt := by
  cases transfer <;> rfl

/-- An instruction and its plain form are compiled alike. -/
lemma lower_plain (i : Instr) : Interchangeable (lower i.plain) (lower i) := by
  cases i with
  | writeSysReg selector rt =>
    apply Interchangeable.of_eq
    rw [Instr.plain, lower, lower, writeSysReg, writeSysReg, lookup_kept]
  | readSysReg selector rt =>
    apply Interchangeable.of_eq
    rw [Instr.plain, lower, lower, readSysReg, readSysReg, lookup_kept]
  | literal transfer size rt offset =>
    apply Interchangeable.of_eq
    rw [Instr.plain, lower, lower, literal, literal, transferAt_target]
  | access transfer size unscaled mode offset rn rt =>
    apply Interchangeable.of_eq
    rw [Instr.plain, lower, lower, transferAt_target]
  | accessIndexed transfer size option scaled rm rn rt =>
    apply Interchangeable.of_eq
    rw [Instr.plain, lower, lower, accessIndexed, accessIndexed, transferAt_target]
  | logicalImm width op imm rn rd => exact lower_plainLogicalImm width op imm rn rd
  | moveWide width op shift imm rd => exact lower_plainMoveWide width op shift imm rd
  | _ => exact .same _

lemma raises_plain (i : Instr) : i.plain.raises = i.raises := by
  cases i with
  | logicalImm width op imm rn rd =>
    show (plainLogicalImm width op imm rn rd).raises = false
    unfold plainLogicalImm
    split <;> rfl
  | moveWide width op shift imm rd =>
    show (plainMoveWide width op shift imm rd).raises = false
    unfold plainMoveWide
    cases op with
    | movk => rfl
    | movz | movn => dsimp only; split <;> rfl
  | _ => rfl

/-! ### Words -/

/-- Two words are compiled to the same: at every address, with the same scratch locals and slots, both are compiled,
to operations with the same effect, and both leave the block ended in the same way. -/
def Synonymous (word₁ word₂ : UInt32) : Prop :=
  ∀ b : Block, b.Settled → b.terminator = none → ∃ (ops₁ ops₂ : List Op) (terminator : Option Terminator)
    (scratch : Ir.Scratch) (slots : Linking.Slots Linking.Code),
    lowerWord word₁ { b with word := word₁ } =
      .ok () ⟨b.pc, word₁, b.ops ++ ops₁, terminator, scratch, slots⟩ ∧
    lowerWord word₂ { b with word := word₂ } =
      .ok () ⟨b.pc, word₂, b.ops ++ ops₂, terminator, scratch, slots⟩ ∧
    SameEffect ops₁ ops₂

lemma synonymous_of_interchangeable {word₁ word₂ : UInt32} {i₁ i₂ : Instr} (h₁ : instrOf word₁ = some i₁)
    (h₂ : instrOf word₂ = some i₂) (hraises : i₁.raises = false) (h : Interchangeable (lower i₁) (lower i₂)) :
    Synonymous word₁ word₂ := by
  intro b hb hopen
  obtain ⟨b', hb', -⟩ := lower_of_not_raises hraises hb hopen
  obtain ⟨ops, terminator, scratch, slots, hrun⟩ := lower_appends hb'
  rw [lowerWord_eq, lowerWord_eq, h₁, h₂]
  dsimp only
  generalize lower i₁ = m₁ at h hrun
  generalize lower i₂ = m₂ at h
  cases h with
  | same => exact ⟨ops, ops, terminator, scratch, slots, hrun word₁, hrun word₂, .refl ops⟩
  | @emit op op' heffect =>
    refine ⟨[op], [op'], b.terminator, b.scratch, b.slots, ?_, ?_, heffect⟩
    · rw [Array.appendList_cons, Array.appendList_nil]
      rfl
    · rw [Array.appendList_cons, Array.appendList_nil]
      rfl

/-- The text of a word tells what it does. Two words with the same text, which is not that of data, either both
raise an exception and are not compiled, or do the same, in every block and from every state. -/
theorem synonymous_of_disassemble_eq {word₁ word₂ : UInt32} (h₁ : ¬ Misplaced word₁) (h₂ : ¬ Misplaced word₂)
    (htext : disassemble word₁ = disassemble word₂) (hdata : disassemble word₁ ≠ Operand.data word₁) :
    ∃ form₁ fields₁ form₂ fields₂, decode word₁ = .ok (form₁, fields₁) ∧ decode word₂ = .ok (form₂, fields₂) ∧
      (form₁.compiles = false ∧ form₂.compiles = false ∨
        form₁.compiles ∧ form₂.compiles ∧ Synonymous word₁ word₂) := by
  have hread := assemble_disassemble h₁
  rw [htext, assemble_disassemble h₂] at hread
  obtain ⟨i₁, hi₁⟩ := Option.ne_none_iff_exists'.1 fun hnone => hdata ((disassemble_eq_data_iff h₁).2 hnone)
  rw [hi₁] at hread
  obtain ⟨i₂, hi₂, hplain⟩ := Option.map_eq_some_iff.1 hread
  obtain ⟨form₁, fields₁, hdecode₁, hread₁⟩ := exists_decode hi₁
  obtain ⟨form₂, fields₂, hdecode₂, hread₂⟩ := exists_decode hi₂
  have hfair₁ := Form.fair_decode hdecode₁
  have hfair₂ := Form.fair_decode hdecode₂
  rw [hread₁] at hfair₁
  rw [hread₂] at hfair₂
  have hraises : i₁.raises = i₂.raises := by rw [← raises_plain i₁, ← raises_plain i₂, hplain]
  have hcompiles : form₁.compiles = form₂.compiles :=
    Bool.not_inj (hfair₁.2.symm.trans (hraises.trans hfair₂.2))
  refine ⟨form₁, fields₁, form₂, fields₂, hdecode₁, hdecode₂, ?_⟩
  cases hform : form₁.compiles with
  | false => exact .inl ⟨rfl, hcompiles.symm.trans hform⟩
  | true =>
    refine .inr ⟨rfl, hcompiles.symm.trans hform, ?_⟩
    apply synonymous_of_interchangeable hi₁ hi₂ (by rw [hfair₁.2, hform]; rfl)
    exact (lower_plain i₁).symm.trans (hplain ▸ lower_plain i₂)

/-- The rotation of a logical immediate counts modulo the size of its pattern. -/
theorem synonymous_orr_one : disassemble 0x320003e0 = disassemble 0x322003e0 ∧
    ∃ form₁ fields₁ form₂ fields₂, decode 0x320003e0 = .ok (form₁, fields₁) ∧
      decode 0x322003e0 = .ok (form₂, fields₂) ∧ (form₁.compiles = false ∧ form₂.compiles = false ∨
        form₁.compiles ∧ form₂.compiles ∧ Synonymous 0x320003e0 0x322003e0) := by
  have hfirst : instrOf 0x320003e0 = some (.logicalImm .w32 .orr ⟨0, 0, 0, 1⟩ 31 0) :=
    (instrOf_decode ((Form.decode_eq (i := 34) rfl
      (Form.toPattern_of_chars (P := fun p => p = .ok _) rfl rfl) rfl).trans (if_pos rfl))).trans rfl
  have hsecond : instrOf 0x322003e0 = some (.logicalImm .w32 .orr ⟨0, 32, 0, 1⟩ 31 0) :=
    (instrOf_decode ((Form.decode_eq (i := 34) rfl
      (Form.toPattern_of_chars (P := fun p => p = .ok _) rfl rfl) rfl).trans (if_pos rfl))).trans rfl
  have htext : disassemble 0x320003e0 = disassemble 0x322003e0 := by
    rw [disassemble_eq, disassemble_eq, hfirst, hsecond]
    rfl
  have hplaced : ∀ {word : UInt32} {imm}, instrOf word = some (.logicalImm .w32 .orr imm 31 0) →
      ¬ Misplaced word := by
    rintro word imm hword ⟨i, hi, hmisplaced⟩
    cases hword.symm.trans hi
    exact hmisplaced
  have hdata : disassemble 0x320003e0 ≠ Operand.data 0x320003e0 := fun h =>
    nomatch hfirst.symm.trans ((disassemble_eq_data_iff (hplaced hfirst)).1 h)
  exact ⟨htext, synonymous_of_disassemble_eq (hplaced hfirst) (hplaced hsecond) htext hdata⟩

end Dynarec.Compiler
