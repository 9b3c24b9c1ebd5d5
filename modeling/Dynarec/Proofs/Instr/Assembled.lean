import Dynarec.Proofs.Instr.Assembler
import Dynarec.Proofs.Ir.Eval

/-!
# Texts are read back

The text of an instruction that an encoding can hold is read as the plain form of the instruction. The plain form
leaves out what the text does: whether an offset was scaled, hints, what a prefetch is for, how a logical immediate
is encoded, and by which move a constant gets into a register.
-/

namespace Dynarec

open Instr Assembler

namespace Instr

/-- The selectors that are not kept are like any other. -/
def kept (selector : Nat) : Nat := if (Cpu.SysReg.lookup selector).isSome then selector else 0

/-- The register of a memory instruction, which is not that of a prefetch. -/
def target (transfer : Transfer) (rt : Nat) : Nat := if transfer = .prefetch then 0 else rt

/-- The plain form of a bitwise operation with an immediate. The move of one into a register is written as a constant
where no wide move gives it. -/
def plainLogicalImm (width : Width) (op : LogicOp) (imm : LogicalImmediate) (rn rd : Nat) : Instr :=
  if op = .orr ∧ rn = 31 ∧ ¬ imm.isWideMove width ∧ rd ≠ 31 then constant width imm.value rd
  else .logicalImm width op ⟨0, 0, 0, imm.value⟩ rn rd

/-- The plain form of a wide move. Only a move of zero to a place above and a move of ones to a whole half are not
written as a constant. -/
def plainMoveWide (width : Width) (op : MoveWideOp) (shift imm rd : Nat) : Instr :=
  let value := UInt64.ofNat imm <<< UInt64.ofNat shift
  let whole := imm ≠ 0 ∨ shift = 0
  match op with
  | .movz => if whole then constant width value rd else .moveWide width .movz shift imm rd
  | .movn =>
    if whole ∧ (width = .w64 ∨ imm ≠ 0xffff) then constant width (~~~value) rd
    else .moveWide width .movn shift imm rd
  | .movk => .moveWide width .movk shift imm rd

end Instr

/-- The plain form of an instruction. -/
def Instr.plain : Instr → Instr
  | .branchCond _ cond offset => .branchCond false cond offset
  | .hint _ | .barrier .. | .sys .. => .hint 0
  | .writeSysReg selector rt => .writeSysReg (kept selector) rt
  | .readSysReg selector rt => .readSysReg (kept selector) rt
  | .literal transfer size rt offset => .literal transfer size (target transfer rt) offset
  | .access transfer size _ mode offset rn rt =>
    .access transfer size false mode offset rn (target transfer rt)
  | .accessIndexed transfer size option scaled rm rn rt =>
    .accessIndexed transfer size option scaled rm rn (target transfer rt)
  | .pair load _ size signed mode offset rt2 rn rt => .pair load false size signed mode offset rt2 rn rt
  | .logicalImm width op imm rn rd => plainLogicalImm width op imm rn rd
  | .moveWide width op shift imm rd => plainMoveWide width op shift imm rd
  | i => i

/-- A bitfield move with a position that a 32-bit register does not have. -/
def Instr.Misplaced : Instr → Prop
  | .bitfield .w32 op immr imms _ _ _ _ => 32 < immr ∨ op = .sbfm ∧ 31 < imms
  | _ => False

namespace Instr.Assembler

open Operand

variable {n rt rt2 rm ra rn rd : Nat} {w : Width} {offset : UInt64}

/-! ### Names -/

lemma lexes_condName (cond : Cpu.Cond) : Lexes cond.name [.word cond.name] := by
  cases cond <;> exact .name rfl (by decide) rfl

lemma condOf_name (cond : Cpu.Cond) : condOf? cond.name = some cond := by cases cond <;> rfl

lemma lexes_shiftName {shift : Nat} (h : shift < 4) : Lexes (shiftName shift) [.word (shiftName shift)] := by
  have hall : ∀ shift < 4, (shiftName shift).toList.all Token.isPlain ∧ shiftName shift ≠ "" ∧
      Token.ofWord (shiftName shift) = .word (shiftName shift) := by
    decide
  obtain ⟨hplain, hne, hword⟩ := hall shift h
  exact .name hplain hne hword

lemma shiftOf_name {shift : Nat} (h : shift < 4) : shiftOf? (shiftName shift) = some shift := by
  have hall : ∀ shift < 4, shiftOf? (shiftName shift) = some shift := by decide
  exact hall shift h

lemma extendOf_shiftName {shift : Nat} (h : shift < 4) : extendOf? (shiftName shift) = none := by
  have hall : ∀ shift < 4, extendOf? (shiftName shift) = none := by decide
  exact hall shift h

lemma lexes_extendName {option : Nat} (h : option < 8) :
    Lexes (extendName option) [.word (extendName option)] := by
  have hall : ∀ option < 8, (extendName option).toList.all Token.isPlain ∧ extendName option ≠ "" ∧
      Token.ofWord (extendName option) = .word (extendName option) := by
    decide
  obtain ⟨hplain, hne, hword⟩ := hall option h
  exact .name hplain hne hword

lemma extendOf_name {option : Nat} (h : option < 8) : extendOf? (extendName option) = some option := by
  have hall : ∀ option < 8, extendOf? (extendName option) = some option := by decide
  exact hall option h

/-! ### Branches and exceptions -/

lemma assemble_branchCond (consistent : Bool) (cond : Cpu.Cond) (offset : UInt64) :
    assemble (Instr.branchCond consistent cond offset).text = some (.branchCond false cond offset) := by
  have hr : readers.lookup ((if consistent then "bc." else "b.") ++ cond.name) =
      some (branchCond cond) := by
    cases consistent <;> cases cond <;> rfl
  refine (assemble_line hr (.cons (.signed offset) .nil)).trans ?_
  exact congrArg (fun v => some (Instr.branchCond false cond v)) (valueOf_signed offset)

lemma assemble_compareBranch (nonzero : Bool) (offset : UInt64) (hrt : rt < 32) :
    assemble (Instr.compareBranch w nonzero rt offset).text = some (.compareBranch w nonzero rt offset) := by
  have hr : readers.lookup (if nonzero then "cbnz" else "cbz") = some (compareBranch nonzero) := by
    cases nonzero <;> rfl
  refine (assemble_line hr (.cons (.reg hrt) (.cons (.signed offset) .nil))).trans ?_
  exact congrArg (fun v => some (Instr.compareBranch w nonzero rt v)) (valueOf_signed offset)

lemma assemble_testBranch (nonzero : Bool) {bit : Nat} (offset : UInt64) (hbit : bit < 64) (hrt : rt < 32) :
    assemble (Instr.testBranch nonzero bit rt offset).text = some (.testBranch nonzero bit rt offset) := by
  have hr : readers.lookup (if nonzero then "tbnz" else "tbz") = some (testBranch nonzero) := by
    cases nonzero <;> rfl
  have hbit' : bit < 2 ^ 64 := Nat.lt_trans hbit (by decide)
  refine (assemble_line hr (.cons (.reg hrt) (.cons (.unsigned hbit') (.cons (.signed offset) .nil)))).trans ?_
  exact congrArg (fun v => some (Instr.testBranch nonzero bit rt v)) (valueOf_signed offset)

lemma assemble_branch (link : Bool) (offset : UInt64) :
    assemble (Instr.branch link offset).text = some (.branch link offset) := by
  have hr : readers.lookup (if link then "bl" else "b") = some (branch link) := by cases link <;> rfl
  refine (assemble_line hr (.cons (.signed offset) .nil)).trans ?_
  exact congrArg (fun v => some (Instr.branch link v)) (valueOf_signed offset)

lemma assemble_branchReg (link : Bool) (hrn : rn < 32) :
    assemble (Instr.branchReg link rn).text = some (.branchReg link rn) := by
  have hr : readers.lookup (if link then "blr" else "br") = some (branchReg link) := by cases link <;> rfl
  exact (assemble_line hr (.cons (.reg hrn) .nil)).trans rfl

lemma assemble_ret (hrn : rn < 32) : assemble (Instr.ret rn).text = some (.ret rn) := by
  show assemble (if rn = 30 then "ret" else line "ret" [reg .w64 rn]) = some (.ret rn)
  split
  · next h =>
    rw [h]
    exact (assemble_line (m := "ret") rfl .nil).trans rfl
  · exact (assemble_line (m := "ret") rfl (.cons (.reg hrn) .nil)).trans rfl

lemma assemble_exceptionReturn : assemble Instr.exceptionReturn.text = some .exceptionReturn :=
  (assemble_line (m := "eret") rfl .nil).trans rfl

lemma assemble_exception (kind : ExceptionKind) {imm : Nat} (himm : imm < 2 ^ 16) :
    assemble (Instr.exception kind imm).text = some (.exception kind imm) := by
  have hr : readers.lookup kind.name = some (exception kind) := by cases kind <;> rfl
  exact (assemble_line hr (.cons (.unsigned (Nat.lt_trans himm (by decide))) .nil)).trans rfl

/-! ### Hints, barriers and system registers -/

lemma assemble_hint (h : n < 2 ^ 7) : assemble (Instr.hint n).text = some (.hint 0) := by
  show assemble (hintText n) = some (.hint 0)
  unfold hintText
  split
  · exact (assemble_line (m := "nop") rfl .nil).trans rfl
  · exact (assemble_line (m := "yield") rfl .nil).trans rfl
  · exact (assemble_line (m := "wfe") rfl .nil).trans rfl
  · exact (assemble_line (m := "wfi") rfl .nil).trans rfl
  · exact (assemble_line (m := "sev") rfl .nil).trans rfl
  · exact (assemble_line (m := "sevl") rfl .nil).trans rfl
  · exact (assemble_line (m := "hint") rfl (.cons (.unsigned (Nat.lt_trans h (by decide))) .nil)).trans rfl

lemma lexes_barrierScope (h : n < 2 ^ 4) :
    Lexes (barrierScope n) [Token.ofWord (barrierScope n)] := by
  have hall : ∀ n < 16, (barrierScope n).toList.all Token.isPlain ∧ barrierScope n ≠ "" := by
    decide
  exact .word (hall n h).1 (hall n h).2

lemma assemble_barrier (kind : Barrier) (h : n < 2 ^ 4) :
    assemble (Instr.barrier kind n).text = some (.hint 0) := by
  have hn : n < 2 ^ 64 := Nat.lt_trans h (by decide)
  show assemble (barrierText kind n) = some (.hint 0)
  unfold barrierText
  split
  · exact (assemble_line (m := "clrex") rfl .nil).trans rfl
  · exact (assemble_line (m := "clrex") rfl (.cons (.unsigned hn) .nil)).trans rfl
  · exact (assemble_line (m := "ssbb") rfl .nil).trans rfl
  · exact (assemble_line (m := "pssbb") rfl .nil).trans rfl
  · exact (assemble_line (m := "dsb") rfl (.cons (lexes_barrierScope h) .nil)).trans rfl
  · exact (assemble_line (m := "dmb") rfl (.cons (lexes_barrierScope h) .nil)).trans rfl
  · exact (assemble_line (m := "isb") rfl .nil).trans rfl
  · exact (assemble_line (m := "isb") rfl (.cons (.unsigned hn) .nil)).trans rfl

lemma assemble_sys {op1 crn crm op2 : Nat} (hop1 : op1 < 2 ^ 3) (hcrn : crn < 2 ^ 4) (hcrm : crm < 2 ^ 4)
    (hop2 : op2 < 2 ^ 3) (hrt : rt < 32) :
    assemble (Instr.sys op1 crn crm op2 rt).text = some (.hint 0) := by
  have hall : ∀ n < 16, s!"c{n}".toList.all Token.isPlain ∧ s!"c{n}" ≠ "" := by decide
  have hop1' : op1 < 2 ^ 64 := Nat.lt_trans hop1 (by decide)
  have hop2' : op2 < 2 ^ 64 := Nat.lt_trans hop2 (by decide)
  have hoperands := List.Forall₂.cons (Lexes.unsigned hop1') (.cons (.word (hall crn hcrn).1 (hall crn hcrn).2)
    (.cons (.word (hall crm hcrm).1 (hall crm hcrm).2) (.cons (.unsigned hop2') .nil)))
  have hlast : ∃ tss, List.Forall₂ Lexes (if rt = 31 then [] else [reg .w64 rt]) tss := by
    split
    · exact ⟨_, .nil⟩
    · exact ⟨_, .cons (.reg hrt) .nil⟩
  obtain ⟨tss, hlast⟩ := hlast
  exact (assemble_line (m := "sys") rfl (List.rel_append hoperands hlast)).trans rfl

lemma assemble_writePstate (field : PstateField) {imm : Nat} (himm : imm < 2 ^ 4) :
    assemble (Instr.writePstate field imm).text = some (.writePstate field imm) := by
  have hname : Lexes field.name [.word field.name] := by
    cases field <;> exact .name rfl (by decide) rfl
  refine (assemble_line (m := "msr") rfl
    (.cons hname (.cons (.unsigned (Nat.lt_trans himm (by decide))) .nil))).trans ?_
  cases field <;> rfl

/-- The name of a kept register is found, and its second character is no digit. -/
lemma sysReg_names : ∀ register ∈ Cpu.SysReg.all,
    register.name.toList.all Token.isPlain ∧ register.name ≠ "" ∧
      Token.ofWord register.name = .word register.name ∧ selectorOf register.name = register.selector ∧
      (register.name.toList[1]?).all (!Char.isDigit ·) := by
  decide

lemma isPlain_digits : (Nat.toDigits 10 n).all Token.isPlain := by
  refine List.all_eq_true.2 fun c hc => ?_
  obtain ⟨d, hd, rfl⟩ := Text.mem_toDigits (by decide) hc
  have hall : ∀ d < 10, Token.isPlain (Nat.digitChar d) := by decide
  exact hall d hd

/-- The generic name of a selector has a digit for its second character. -/
lemma toList_generic {selector : Nat} (h : Cpu.SysReg.lookup selector = none) :
    ∃ d < 10, ∃ rest, (Cpu.SysReg.name selector).toList = 's' :: Nat.digitChar d :: rest ∧
      rest.all Token.isPlain := by
  have hop0 : selector / 16384 % 4 < 10 := by omega
  have hname : Cpu.SysReg.name selector = "s" ++ (selector / 16384 % 4).repr ++ "_" ++
      (selector / 2048 % 8).repr ++ "_c" ++ (selector / 128 % 16).repr ++ "_c" ++
        (selector / 8 % 16).repr ++ "_" ++ (selector % 8).repr := by
    rw [Cpu.SysReg.name, h]
    rfl
  refine ⟨_, hop0, '_' :: (Nat.toDigits 10 (selector / 2048 % 8) ++ '_' :: 'c' ::
    (Nat.toDigits 10 (selector / 128 % 16) ++ '_' :: 'c' :: (Nat.toDigits 10 (selector / 8 % 16) ++
      '_' :: Nat.toDigits 10 (selector % 8)))), ?_, ?_⟩
  · rw [hname]
    simp [Nat.toDigits_of_lt_base hop0, -Nat.reduceDiv]
  · simp only [List.all_cons, List.all_append, isPlain_digits, Bool.and_true]
    decide

/-- The generic name of a selector is not that of a kept register. -/
lemma lexes_generic {selector : Nat} (h : Cpu.SysReg.lookup selector = none) :
    Lexes (Cpu.SysReg.name selector) [.word (Cpu.SysReg.name selector)] ∧
      selectorOf (Cpu.SysReg.name selector) = 0 := by
  obtain ⟨d, hd, rest, hchars, hrest⟩ := toList_generic h
  have hdigit : Token.isPlain d.digitChar ∧ d.digitChar.isDigit ∧ d.digitChar ≠ 'p' := by
    have hall : ∀ d < 10, Token.isPlain (Nat.digitChar d) ∧ (Nat.digitChar d).isDigit ∧
        Nat.digitChar d ≠ 'p' := by
      decide
    exact hall d hd
  have hregister : Token.registers.lookup (Cpu.SysReg.name selector) = none := by
    rw [List.lookup_eq_none_iff]
    intro row hrow
    have hall : ∀ row ∈ Token.registers, row.1.toList.head? = some 's' → row.1.toList[1]? = some 'p' := by
      decide
    rw [bne_iff_ne]
    intro heq
    have hsecond := hall row hrow
    rw [← heq, hchars] at hsecond
    exact hdigit.2.2 (Option.some_inj.1 (hsecond rfl))
  have hfind : Cpu.SysReg.all.find? (·.name == Cpu.SysReg.name selector) = none := by
    rw [List.find?_eq_none]
    intro register hmem heq
    have hsecond := (sysReg_names register hmem).2.2.2.2
    rw [beq_iff_eq.1 heq, hchars] at hsecond
    simp [hdigit.2.1] at hsecond
  refine ⟨.name ?_ ?_ ?_, ?_⟩
  · rw [hchars, List.all_cons, List.all_cons, hdigit.1, hrest]
    rfl
  · intro hempty
    rw [hempty] at hchars
    cases hchars
  · unfold Token.ofWord
    rw [hchars]
    show (Token.registers.lookup (Cpu.SysReg.name selector)).getD _ = _
    rw [hregister]
    rfl
  · rw [selectorOf, hfind]
    rfl

lemma lexes_sysReg (selector : Nat) :
    Lexes (Cpu.SysReg.name selector) [.word (Cpu.SysReg.name selector)] ∧
      selectorOf (Cpu.SysReg.name selector) = kept selector := by
  cases hlookup : Cpu.SysReg.lookup selector with
  | none =>
    rw [kept, hlookup]
    exact lexes_generic hlookup
  | some register =>
    have hname : Cpu.SysReg.name selector = register.name := by rw [Cpu.SysReg.name, hlookup]
    have hselector : register.selector = selector := beq_iff_eq.1
      (List.find?_some (p := fun r : Cpu.SysReg.Register => r.selector == selector) hlookup)
    obtain ⟨hplain, hne, hword, hfound, -⟩ := sysReg_names register (List.mem_of_find?_eq_some hlookup)
    rw [kept, hlookup, hname, hfound, hselector]
    exact ⟨.name hplain hne hword, rfl⟩

lemma assemble_writeSysReg (selector : Nat) (hrt : rt < 32) :
    assemble (Instr.writeSysReg selector rt).text = some (.writeSysReg (kept selector) rt) := by
  obtain ⟨hlex, hkept⟩ := lexes_sysReg selector
  rw [← hkept]
  exact (assemble_line (m := "msr") rfl (.cons hlex (.cons (.reg hrt) .nil))).trans rfl

lemma assemble_readSysReg (selector : Nat) (hrt : rt < 32) :
    assemble (Instr.readSysReg selector rt).text = some (.readSysReg (kept selector) rt) := by
  obtain ⟨hlex, hkept⟩ := lexes_sysReg selector
  rw [← hkept]
  exact (assemble_line (m := "mrs") rfl (.cons (.reg hrt) (.cons hlex .nil))).trans rfl

/-! ### Loads and stores -/

/-- The width of the register that a memory instruction names. -/
def transferWidth (size : AccessSize) : Transfer → Width
  | .store => if size = .double then .w64 else .w32
  | .load width _ => width
  | .prefetch => .w64

/-- The reader of a memory instruction tells what it does from its register. -/
lemma lookup_access {t : Transfer} {size : AccessSize} (unscaled : Bool) (ht : t.moves size)
    (hne : t ≠ .prefetch) : ∃ kind, readers.lookup (accessName t size unscaled) = some (access kind) ∧
      kind (transferWidth size t) = (t, size) := by
  cases t with
  | store => cases size <;> cases unscaled <;> exact ⟨_, rfl, rfl⟩
  | prefetch => exact absurd rfl hne
  | load width signed =>
    cases width <;> cases signed <;> cases size <;> cases ht
    all_goals cases unscaled <;> exact ⟨_, rfl, rfl⟩

lemma lexes_prefetchName (h : rt < 32) : Lexes (prefetchName rt) [Token.ofWord (prefetchName rt)] := by
  have hall : ∀ rt < 32, (prefetchName rt).toList.all Token.isPlain ∧ prefetchName rt ≠ "" := by
    decide
  exact .word (hall rt h).1 (hall rt h).2

/-- A memory instruction is read but for its address. -/
lemma assemble_transfer {t : Transfer} {size : AccessSize} (unscaled : Bool) {ops : List String}
    {tss : List (List Token)} (ht : t.moves size) (hrt : rt < 32) (hops : List.Forall₂ Lexes ops tss) :
    assemble (line (accessName t size unscaled) (transferOperand t size rt :: ops)) =
      transfer t size (target t rt) tss.flatten := by
  by_cases hne : t = .prefetch
  · subst hne
    obtain rfl : size = .double := beq_iff_eq.1 ht
    have hr : readers.lookup (accessName .prefetch .double unscaled) = some prefetch := by
      cases unscaled <;> rfl
    exact (assemble_line hr (.cons (lexes_prefetchName hrt) hops)).trans rfl
  · obtain ⟨kind, hr, hkind⟩ := lookup_access unscaled ht hne
    have hoperand : transferOperand t size rt = reg (transferWidth size t) rt := by
      cases t <;> first | rfl | exact absurd rfl hne
    rw [hoperand, assemble_line hr (.cons (.reg hrt) hops), target, if_neg hne]
    show transfer (kind (transferWidth size t)).1 (kind (transferWidth size t)).2 rt tss.flatten = _
    rw [hkind]

lemma assemble_literal {t : Transfer} {size : AccessSize} (offset : UInt64) (ht : t.movesLiteral size)
    (hrt : rt < 32) :
    assemble (Instr.literal t size rt offset).text = some (.literal t size (target t rt) offset) := by
  have hread : ∀ name, name = accessName t size false → t.moves size →
      assemble (line name [transferOperand t size rt, signed offset]) =
        some (.literal t size (target t rt) offset) := by
    rintro name rfl hmoves
    refine (assemble_transfer false hmoves hrt (.cons (.signed offset) .nil)).trans ?_
    exact congrArg (fun v => some (Instr.literal t size (target t rt) v)) (valueOf_signed offset)
  cases t with
  | store => cases ht
  | prefetch => exact hread "prfm" rfl ht
  | load width signed =>
    cases width <;> cases signed <;> cases size <;> cases ht
    · exact hread "ldr" rfl rfl
    · exact hread "ldr" rfl rfl
    · exact hread "ldrsw" rfl rfl

/-- The base, the offset and the mode of a memory operand are read. -/
lemma memory_tokens (rn : Nat) (offset : UInt64) (mode : AddrMode) :
    memory? (Lexes.memoryTokens rn offset mode) = some (rn, offset, mode) := by
  have hvalue : ∀ mode : AddrMode,
      some (rn, valueOf (sign offset) (magnitude offset), mode) = some (rn, offset, mode) := fun mode => by
    rw [valueOf_signed]
  cases mode with
  | offset =>
    simp only [Lexes.memoryTokens]
    split
    · next h =>
      rw [h]
      rfl
    · exact hvalue .offset
  | preIndex => exact hvalue .preIndex
  | postIndex => exact hvalue .postIndex

lemma transfer_tokens (t : Transfer) (size : AccessSize) (rt rn : Nat) (offset : UInt64) (mode : AddrMode) :
    transfer t size rt (Lexes.memoryTokens rn offset mode) =
      some (.access t size false mode offset rn rt) := by
  have hmemory := memory_tokens rn offset mode
  have hrest : transfer t size rt (Lexes.memoryTokens rn offset mode) =
      (memory? (Lexes.memoryTokens rn offset mode)).map fun r => .access t size false r.2.2 r.2.1 r.1 rt := by
    cases mode with
    | offset =>
      simp only [Lexes.memoryTokens]
      split <;> rfl
    | _ => rfl
  rw [hrest, hmemory]
  rfl

lemma assemble_access {t : Transfer} {size : AccessSize} (unscaled : Bool) (mode : AddrMode)
    (offset : UInt64) (ht : t.moves size) (hrn : rn < 32) (hrt : rt < 32) :
    assemble (Instr.access t size unscaled mode offset rn rt).text =
      some (.access t size false mode offset rn (target t rt)) := by
  refine (assemble_transfer unscaled ht hrt (.cons (.memory hrn offset mode) .nil)).trans ?_
  rw [List.flatten_cons, List.flatten_nil, List.append_nil, transfer_tokens]

lemma assemble_accessIndexed {t : Transfer} {size : AccessSize} {option : Nat} (scaled : Bool)
    (ht : t.moves size) (hoption : option ∈ [2, 3, 6, 7]) (hrm : rm < 32) (hrn : rn < 32) (hrt : rt < 32) :
    assemble (Instr.accessIndexed t size option scaled rm rn rt).text =
      some (.accessIndexed t size option scaled rm rn (target t rt)) := by
  have hlog : size.log2 < 2 ^ 64 := by cases size <;> decide
  have haddress : ∀ index tss, List.Forall₂ Lexes index tss →
      Lexes ("[" ++ ", ".intercalate ([regOrSp .w64 rn, reg (.ofSizeBit option) rm] ++ index) ++ "]")
        (.opens :: .reg .w64 rn (rn == 31) :: .reg (.ofSizeBit option) rm false ::
          (tss.flatten ++ [.closes])) := fun index tss hindex =>
    (Lexes.opened (.intercalate (.cons (.regOrSp hrn) (.cons (.reg hrm) hindex)))).closed
  have hread : ∀ tokens, Lexes (indexedAddress size option scaled rm rn) tokens →
      transfer t size (target t rt) tokens = some (.accessIndexed t size option scaled rm rn (target t rt)) →
      assemble (Instr.accessIndexed t size option scaled rm rn rt).text =
        some (.accessIndexed t size option scaled rm rn (target t rt)) := fun tokens hlex htransfer => by
    refine (assemble_transfer false ht hrt (.cons hlex .nil)).trans ?_
    rw [List.flatten_cons, List.flatten_nil, List.append_nil, htransfer]
  simp only [List.mem_cons, List.not_mem_nil, or_false] at hoption
  rcases hoption with rfl | rfl | rfl | rfl <;> cases scaled
  · exact hread _ (haddress _ _ (.cons (lexes_extendName (by decide)) .nil)) rfl
  · exact hread _ (haddress _ _ (.cons ((lexes_extendName (by decide)).amount hlog) .nil)) rfl
  · exact hread _ (haddress _ _ .nil) rfl
  · exact hread _ (haddress _ _ (.cons (.amount (a := "lsl") (.name rfl (by decide) rfl) hlog) .nil)) rfl
  · exact hread _ (haddress _ _ (.cons (lexes_extendName (by decide)) .nil)) rfl
  · exact hread _ (haddress _ _ (.cons ((lexes_extendName (by decide)).amount hlog) .nil)) rfl
  · exact hread _ (haddress _ _ (.cons (lexes_extendName (by decide)) .nil)) rfl
  · exact hread _ (haddress _ _ (.cons ((lexes_extendName (by decide)).amount hlog) .nil)) rfl

lemma assemble_pair {load nonTemporal signed : Bool} {size : AccessSize} (mode : AddrMode) (offset : UInt64)
    (h : pairMoves load nonTemporal size signed) (hrt2 : rt2 < 32) (hrn : rn < 32) (hrt : rt < 32) :
    assemble (Instr.pair load nonTemporal size signed mode offset rt2 rn rt).text =
      some (.pair load false size signed mode offset rt2 rn rt) := by
  have hread : ∀ m w, readers.lookup m = some (pair load signed) →
      (if signed then .word else registerSize w) = size →
      assemble (line m [reg w rt, reg w rt2, memory rn offset mode]) =
        some (.pair load false size signed mode offset rt2 rn rt) := fun m w hr hsize => by
    refine (assemble_line hr (.cons (.reg hrt) (.cons (.reg hrt2) (.cons (.memory hrn offset mode) .nil)))).trans ?_
    simp only [List.flatten_cons, List.flatten_nil, List.append_nil, List.singleton_append, pair, hsize,
      memory_tokens]
    rfl
  cases signed with
  | true =>
    simp only [pairMoves, if_true, Bool.and_eq_true, beq_iff_eq, Bool.not_eq_true'] at h
    obtain ⟨⟨rfl, rfl⟩, rfl⟩ := h
    exact hread "ldpsw" .w64 rfl rfl
  | false =>
    simp only [pairMoves, Bool.false_eq_true, if_false, Bool.or_eq_true, beq_iff_eq] at h
    rcases h with rfl | rfl <;> cases load <;> cases nonTemporal
    · exact hread "stp" .w32 rfl rfl
    · exact hread "stnp" .w32 rfl rfl
    · exact hread "ldp" .w32 rfl rfl
    · exact hread "ldnp" .w32 rfl rfl
    · exact hread "stp" .w64 rfl rfl
    · exact hread "stnp" .w64 rfl rfl
    · exact hread "ldp" .w64 rfl rfl
    · exact hread "ldnp" .w64 rfl rfl

/-! ### Operations on immediates -/

lemma assemble_address (page : Bool) (offset : UInt64) (hrd : rd < 32) :
    assemble (Instr.address page offset rd).text = some (.address page offset rd) := by
  have hr : readers.lookup (if page then "adrp" else "adr") = some (address page) := by cases page <;> rfl
  refine (assemble_line hr (.cons (.reg hrd) (.cons (.signed offset) .nil))).trans ?_
  exact congrArg (fun v => some (Instr.address page v rd)) (valueOf_signed offset)

lemma lookup_addSub (sub setFlags : Bool) :
    readers.lookup (addSubName sub setFlags) = some (addSub sub setFlags) := by
  cases sub <;> cases setFlags <;> rfl

lemma lookup_compare (sub : Bool) :
    readers.lookup (if sub then "cmp" else "cmn") = some (compare sub) := by
  cases sub <;> rfl

/-- A destination is the stack pointer where the flags are not set. -/
lemma lexes_dest (setFlags : Bool) (hrd : rd < 32) :
    Lexes (if setFlags then reg w rd else regOrSp w rd) [.reg w rd (!setFlags && rd == 31)] := by
  cases setFlags with
  | true => exact .reg hrd
  | false => exact .regOrSp hrd

lemma assemble_addSubImm (sub setFlags shifted : Bool) {imm : Nat} (himm : imm < 2 ^ 12) (hrn : rn < 32)
    (hrd : rd < 32) : assemble (Instr.addSubImm w sub setFlags shifted imm rn rd).text =
      some (.addSubImm w sub setFlags shifted imm rn rd) := by
  have hrest : List.Forall₂ Lexes (unsigned imm :: if shifted then ["lsl #0xc"] else [])
      ([.imm false imm] :: if shifted then [[.word "lsl", .imm false 12]] else []) := by
    refine .cons (.unsigned (Nat.lt_trans himm (by decide))) ?_
    cases shifted with
    | true =>
      have hlsl := Lexes.amount (a := "lsl") (n := 12) (.name rfl (by decide) rfl) (by decide)
      exact .cons hlsl .nil
    | false => exact .nil
  show assemble (addSubImmText w sub setFlags shifted imm rn rd) = _
  unfold addSubImmText
  dsimp only
  split
  · next h =>
    simp only [Bool.and_eq_true, Bool.not_eq_true', beq_iff_eq] at h
    obtain ⟨⟨⟨⟨rfl, rfl⟩, rfl⟩, rfl⟩, hstack⟩ := h
    refine (assemble_line (m := "mov") rfl (.cons (.regOrSp hrd) (.cons (.regOrSp hrn) .nil))).trans ?_
    exact if_pos hstack
  · split
    · next h =>
      simp only [Bool.and_eq_true, beq_iff_eq] at h
      obtain ⟨rfl, rfl⟩ := h
      refine (assemble_line (lookup_compare sub) (.cons (.regOrSp hrn) hrest)).trans ?_
      cases shifted <;> rfl
    · refine (assemble_line (lookup_addSub sub setFlags)
        (.cons (lexes_dest setFlags hrd) (.cons (.regOrSp hrn) hrest))).trans ?_
      cases shifted <;> rfl

lemma lookup_logic (op : LogicOp) (inverted : Bool) :
    readers.lookup (op.name inverted) = some (logic op inverted) := by
  cases op <;> cases inverted <;> rfl

lemma assemble_logicalImm (op : LogicOp) (imm : LogicalImmediate) (hrn : rn < 32) (hrd : rd < 32) :
    assemble (Instr.logicalImm w op imm rn rd).text = some (plainLogicalImm w op imm rn rd) := by
  have hvalue := Lexes.unsigned imm.value.toNat_lt
  have hword : valueOf false imm.value.toNat = imm.value := UInt64.ofNat_toNat
  show assemble (logicalImmText w op imm rn rd) = _
  unfold logicalImmText
  dsimp only
  split
  · next h =>
    obtain ⟨rfl, rfl⟩ := h
    refine (assemble_line (m := "tst") rfl (.cons (.reg hrn) (.cons hvalue .nil))).trans ?_
    exact congrArg (fun v => some (Instr.logicalImm w .ands ⟨0, 0, 0, v⟩ rn 31)) hword
  · next hands =>
    split
    · next h =>
      obtain ⟨rfl, rfl, hwide⟩ := h
      refine (assemble_line (m := "mov") rfl (.cons (.regOrSp hrd) (.cons hvalue .nil))).trans ?_
      by_cases hd : rd = 31
      · subst hd
        have hplain : plainLogicalImm w .orr imm 31 31 = .logicalImm w .orr ⟨0, 0, 0, imm.value⟩ 31 31 :=
          if_neg fun h => h.2.2.2 rfl
        rw [hplain]
        exact congrArg (fun v => some (Instr.logicalImm w .orr ⟨0, 0, 0, v⟩ 31 31)) hword
      · have hplain : plainLogicalImm w .orr imm 31 rd = constant w imm.value rd :=
          if_pos ⟨rfl, rfl, hwide, hd⟩
        rw [hplain, beq_false_of_ne hd]
        exact congrArg (fun v => some (constant w v rd)) hword
    · next hmov =>
      have hplain : plainLogicalImm w op imm rn rd = .logicalImm w op ⟨0, 0, 0, imm.value⟩ rn rd :=
        if_neg fun h => hmov ⟨h.1, h.2.1, h.2.2.1⟩
      have hdest : Lexes (if op = .ands then reg w rd else regOrSp w rd)
          [.reg w rd (!decide (op = .ands) && rd == 31)] := by
        have hdest := lexes_dest (w := w) (decide (op = .ands)) hrd
        simpa only [decide_eq_true_eq] using hdest
      rw [hplain]
      refine (assemble_line (lookup_logic op false) (.cons hdest (.cons (.reg hrn) (.cons hvalue .nil)))).trans ?_
      exact congrArg (fun v => some (Instr.logicalImm w op ⟨0, 0, 0, v⟩ rn rd)) hword

/-- A value is extended with its sign above the width only. -/
lemma signExtend_and_mask (w : Width) (v : UInt64) :
    Bits.signExtend (v &&& w.mask) w.bits &&& w.mask = v &&& w.mask := by
  apply Bits.eq_of_bit
  intro i hi
  rw [Bits.bit_and, Bits.bit_and, Bits.bit_mask, Bits.bit_signExtend w.bits_pos w.bits_le hi]
  by_cases hlt : i < w.bits <;> simp [hlt, Bits.bit_mask]

lemma assemble_moveWide (op : MoveWideOp) {shift imm : Nat} (hshift : shift < w.bits) (himm : imm < 2 ^ 16)
    (hrd : rd < 32) :
    assemble (Instr.moveWide w op shift imm rd).text = some (plainMoveWide w op shift imm rd) := by
  have hshift' : shift < 2 ^ 64 := Nat.lt_trans (Nat.lt_of_lt_of_le hshift w.bits_le) (by decide)
  have hrest : List.Forall₂ Lexes (unsigned imm :: if shift = 0 then [] else ["lsl " ++ unsigned shift])
      ([.imm false imm] :: if shift = 0 then [] else [[.word "lsl", .imm false shift]]) := by
    refine .cons (.unsigned (Nat.lt_trans himm (by decide))) ?_
    split
    · exact .nil
    · exact .cons (.amount (a := "lsl") (.name rfl (by decide) rfl) hshift') .nil
  have hwide : ∀ m op, readers.lookup m = some (moveWide op) →
      assemble (line m (reg w rd :: unsigned imm :: if shift = 0 then [] else ["lsl " ++ unsigned shift])) =
        some (.moveWide w op shift imm rd) := fun m op hr => by
    refine (assemble_line hr (.cons (.reg hrd) hrest)).trans ?_
    by_cases h : shift = 0
    · rw [if_pos h, h]
      rfl
    · rw [if_neg h]
      rfl
  have hconstant : ∀ {text minus n}, Lexes text [.imm minus n] →
      assemble (line "mov" [reg w rd, text]) = some (constant w (valueOf minus n) rd) := fun hlex =>
    (assemble_line (m := "mov") rfl (.cons (.reg hrd) (.cons hlex .nil))).trans rfl
  show assemble (moveWideText w op shift imm rd) = _
  unfold moveWideText plainMoveWide
  dsimp only
  cases op with
  | movk => exact hwide "movk" .movk rfl
  | movz =>
    dsimp only
    split
    · rw [hconstant (.unsigned (UInt64.toNat_lt _)), valueOf, if_neg Bool.false_ne_true, UInt64.ofNat_toNat]
    · exact hwide "movz" .movz rfl
  | movn =>
    dsimp only
    split
    · rw [hconstant (.signed _), valueOf_signed, constant, constant, signExtend_and_mask]
    · exact hwide "movn" .movn rfl

/-! ### Bitfields -/

section Bitfields

variable {op : BitfieldOp} {immr imms : Nat} {m : String}

/-- Positions are small numbers. -/
lemma lexes_position (h : n < 2 ^ 7) : Lexes (unsigned n) [.imm false n] :=
  .unsigned (Nat.lt_trans h (by decide))

lemma assemble_positions (hm : readers.lookup m = some (positions op)) (himmr : immr < 2 ^ 6)
    (himms : imms < 2 ^ 6) (hrn : rn < 32) (hrd : rd < 32) :
    assemble (line m [reg w rd, reg w rn, unsigned immr, unsigned imms]) = bitfield w op immr imms rn rd :=
  (assemble_line hm (.cons (.reg hrd) (.cons (.reg hrn) (.cons (lexes_position (by omega))
    (.cons (lexes_position (by omega)) .nil))))).trans rfl

/-- The tokens of the position and of the size of a field that is inserted. -/
lemma lexes_insert (himms : imms < 2 ^ 6) :
    List.Forall₂ Lexes [unsigned ((w.bits - immr) % w.bits), unsigned (imms + 1)]
      [[.imm false ((w.bits - immr) % w.bits)], [.imm false (imms + 1)]] := by
  have hlsb : (w.bits - immr) % w.bits < w.bits := Nat.mod_lt _ w.bits_pos
  have hbits : w.bits ≤ 64 := w.bits_le
  exact .cons (lexes_position (by omega)) (.cons (lexes_position (by omega)) .nil)

/-- The rotation is told by the place to which it brings the lowest bit. -/
lemma insert_eq (hlt : imms < immr) (himmr : immr ≤ w.bits) :
    insert op [.reg w rd false, .reg w rn false, .imm false ((w.bits - immr) % w.bits),
      .imm false (imms + 1)] = bitfield w op immr imms rn rd := by
  show bitfield w op (w.bits - (w.bits - immr) % w.bits) (imms + 1 - 1) rn rd = _
  rw [Nat.mod_eq_of_lt (by omega), Nat.sub_sub_self himmr, Nat.add_sub_cancel]

lemma assemble_insert (hm : readers.lookup m = some (insert op)) (hlt : imms < immr) (himmr : immr ≤ w.bits)
    (himms : imms < 2 ^ 6) (hrn : rn < 32) (hrd : rd < 32) :
    assemble (line m (reg w rd :: reg w rn ::
      [unsigned ((w.bits - immr) % w.bits), unsigned (imms + 1)])) = bitfield w op immr imms rn rd :=
  (assemble_line hm (.cons (.reg hrd) (.cons (.reg hrn) (lexes_insert himms)))).trans
    (insert_eq hlt himmr)

lemma assemble_extractBits (hm : readers.lookup m = some (extract op)) (hle : immr ≤ imms)
    (himms : imms < 2 ^ 6) (hrn : rn < 32) (hrd : rd < 32) :
    assemble (line m (reg w rd :: reg w rn :: [unsigned immr, unsigned (imms - immr + 1)])) =
      bitfield w op immr imms rn rd := by
  refine (assemble_line hm (.cons (.reg hrd) (.cons (.reg hrn) (.cons (lexes_position (by omega))
    (.cons (lexes_position (by omega)) .nil))))).trans ?_
  show bitfield w op immr (immr + (imms - immr + 1) - 1) rn rd = _
  rw [show immr + (imms - immr + 1) - 1 = imms by omega]

lemma assemble_shiftAmount {two : TwoSourceOp} {byAmount : Width → Nat → Nat → Nat → Option Instr}
    (hm : readers.lookup m = some (shift two byAmount)) (h : n < 2 ^ 7) (hrn : rn < 32) (hrd : rd < 32) :
    assemble (line m [reg w rd, reg w rn, unsigned n]) = byAmount w n rn rd :=
  (assemble_line hm (.cons (.reg hrd) (.cons (.reg hrn) (.cons (lexes_position h) .nil)))).trans rfl

lemma assemble_extend (hm : readers.lookup m = some (extend op imms)) (hrn : rn < 32) (hrd : rd < 32) :
    assemble (line m [reg w rd, reg .w32 rn]) = bitfield w op 0 imms rn rd :=
  (assemble_line hm (.cons (.reg hrd) (.cons (.reg hrn) .nil))).trans rfl

lemma assemble_sbfm (himmr : immr ≤ w.bits) (himms : imms < 2 ^ 6) (hrn : rn < 32) (hrd : rd < 32)
    (hr : immr < 2 ^ 6) : assemble (bitfieldText w .sbfm immr imms rn rd) =
      bitfield w .sbfm immr imms rn rd := by
  simp only [bitfieldText]
  split
  · next h =>
    rw [assemble_shiftAmount (m := "asr") rfl (by omega) hrn hrd, h]
  split
  · next h => exact assemble_insert (m := "sbfiz") rfl h himmr himms hrn hrd
  split
  · next h _ => exact assemble_extractBits (m := "sbfx") rfl (Nat.not_lt.1 h) himms hrn hrd
  split
  · next h =>
    obtain ⟨rfl, rfl⟩ := h
    exact assemble_extend (m := "sxtb") rfl hrn hrd
  split
  · next h =>
    obtain ⟨rfl, rfl⟩ := h
    exact assemble_extend (m := "sxth") rfl hrn hrd
  split
  · next h =>
    obtain ⟨rfl, rfl⟩ := h
    exact assemble_extend (m := "sxtw") rfl hrn hrd
  · exact assemble_positions (m := "sbfm") rfl hr himms hrn hrd

lemma assemble_bfm (himmr : immr ≤ w.bits) (himms : imms < 2 ^ 6) (hrn : rn < 32) (hrd : rd < 32) :
    assemble (bitfieldText w .bfm immr imms rn rd) = bitfield w .bfm immr imms rn rd := by
  simp only [bitfieldText]
  split
  · next hlt =>
    split
    · next h =>
      subst h
      exact (assemble_line (m := "bfc") rfl (.cons (.reg hrd) (lexes_insert himms))).trans
        (insert_eq hlt himmr)
    · exact assemble_insert (m := "bfi") rfl hlt himmr himms hrn hrd
  · next h => exact assemble_extractBits (m := "bfxil") rfl (Nat.not_lt.1 h) himms hrn hrd

lemma assemble_ubfm (himmr : immr ≤ w.bits) (himms : imms < 2 ^ 6) (hrn : rn < 32) (hrd : rd < 32)
    (hr : immr < 2 ^ 6) : assemble (bitfieldText w .ubfm immr imms rn rd) =
      bitfield w .ubfm immr imms rn rd := by
  have hbits : w.bits ≤ 64 := w.bits_le
  simp only [bitfieldText]
  split
  · next h =>
    rw [assemble_shiftAmount (m := "lsl") rfl (by omega) hrn hrd]
    show bitfield w .ubfm (w.bits - (w.bits - 1 - imms)) (w.bits - 1 - (w.bits - 1 - imms)) rn rd = _
    rw [show w.bits - (w.bits - 1 - imms) = immr by omega, show w.bits - 1 - (w.bits - 1 - imms) = imms by omega]
  split
  · next h =>
    rw [assemble_shiftAmount (m := "lsr") rfl (by omega) hrn hrd, h]
  split
  · next h => exact assemble_insert (m := "ubfiz") rfl h himmr himms hrn hrd
  split
  · next h _ => exact assemble_extractBits (m := "ubfx") rfl (Nat.not_lt.1 h) himms hrn hrd
  split
  · next h =>
    obtain ⟨rfl, rfl⟩ := h
    exact assemble_extend (m := "uxtb") rfl hrn hrd
  split
  · next h =>
    obtain ⟨rfl, rfl⟩ := h
    exact assemble_extend (m := "uxth") rfl hrn hrd
  · exact assemble_positions (m := "ubfm") rfl hr himms hrn hrd

lemma assemble_bitfield (op : BitfieldOp) {wmask tmask : UInt64}
    (hmasks : Bits.decodeMasks (sizeBit w) imms immr false w = some (wmask, tmask)) (himmr : immr < 2 ^ 6)
    (himms : imms < 2 ^ 6) (hrn : rn < 32) (hrd : rd < 32)
    (hplaced : ¬ (Instr.bitfield w op immr imms wmask tmask rn rd).Misplaced) :
    assemble (Instr.bitfield w op immr imms wmask tmask rn rd).text =
      some (.bitfield w op immr imms wmask tmask rn rd) := by
  have hr : immr ≤ w.bits := by
    cases w with
    | w32 => exact Nat.not_lt.1 fun h => hplaced (.inl h)
    | w64 => exact Nat.le_of_lt himmr
  have hfield : bitfield w op immr imms rn rd = some (.bitfield w op immr imms wmask tmask rn rd) := by
    rw [bitfield, hmasks]
    rfl
  rw [← hfield]
  cases op with
  | sbfm => exact assemble_sbfm hr himms hrn hrd himmr
  | bfm => exact assemble_bfm hr himms hrn hrd
  | ubfm => exact assemble_ubfm hr himms hrn hrd himmr

end Bitfields

/-! ### Operations on registers -/

lemma assemble_extract {lsb : Nat} (hlsb : lsb < w.bits) (hrm : rm < 32) (hrn : rn < 32) (hrd : rd < 32) :
    assemble (Instr.extract w lsb rm rn rd).text = some (.extract w lsb rm rn rd) := by
  have hlsb' : lsb < 2 ^ 7 := Nat.lt_trans (Nat.lt_of_lt_of_le hlsb w.bits_le) (by decide)
  show assemble (if rn = rm then line "ror" [reg w rd, reg w rn, unsigned lsb]
    else line "extr" [reg w rd, reg w rn, reg w rm, unsigned lsb]) = _
  split
  · next h =>
    subst h
    exact assemble_shiftAmount (m := "ror") rfl hlsb' hrn hrd
  · exact (assemble_line (m := "extr") rfl (.cons (.reg hrd) (.cons (.reg hrn) (.cons (.reg hrm)
      (.cons (lexes_position hlsb') .nil))))).trans rfl

/-- The tokens of a shift. -/
def shiftTokens (shift amount : Nat) : List (List Token) :=
  if amount = 0 ∧ shift = 0 then [] else [[.word (shiftName shift), .imm false amount]]

lemma lexes_shiftSuffix {shift amount : Nat} (hshift : shift < 4) (hamount : amount < w.bits) :
    List.Forall₂ Lexes (shiftSuffix shift amount) (shiftTokens shift amount) := by
  unfold shiftSuffix shiftTokens
  split
  · exact .nil
  · exact .cons ((lexes_shiftName hshift).amount
      (Nat.lt_trans (Nat.lt_of_lt_of_le hamount w.bits_le) (by decide))) .nil

lemma logic_shifted (op : LogicOp) (inverted : Bool) {shift amount : Nat} (hshift : shift < 4) :
    logic op inverted (.reg w rd false :: .reg w rn false :: .reg w rm false ::
      (shiftTokens shift amount).flatten) = some (.logicalReg w op inverted shift amount rm rn rd) := by
  unfold shiftTokens
  split
  · next h =>
    obtain ⟨rfl, rfl⟩ := h
    rfl
  · show (shiftOf? (shiftName shift)).map _ = _
    rw [shiftOf_name hshift]
    rfl

lemma assemble_logicalReg (op : LogicOp) (inverted : Bool) {shift amount : Nat} (hshift : shift < 4)
    (hamount : amount < w.bits) (hrm : rm < 32) (hrn : rn < 32) (hrd : rd < 32) :
    assemble (Instr.logicalReg w op inverted shift amount rm rn rd).text =
      some (.logicalReg w op inverted shift amount rm rn rd) := by
  have hrest := lexes_shiftSuffix hshift hamount
  have hfull : ∀ op inverted, assemble (line (op.name inverted)
      ([reg w rd, reg w rn, reg w rm] ++ shiftSuffix shift amount)) =
        some (.logicalReg w op inverted shift amount rm rn rd) := fun op inverted =>
    (assemble_line (lookup_logic op inverted) (.cons (.reg hrd) (.cons (.reg hrn) (.cons (.reg hrm) hrest)))).trans
      (logic_shifted op inverted hshift)
  show assemble (logicalRegText w op inverted shift amount rm rn rd) = _
  simp only [logicalRegText]
  split
  · split
    · next h =>
      obtain ⟨rfl, rfl, rfl⟩ := h
      exact (assemble_line (m := "mov") rfl (.cons (.reg hrd) (.cons (.reg hrm) .nil))).trans rfl
    · exact hfull .orr false
  · split
    · next h =>
      subst h
      exact (assemble_line (m := "mvn") rfl (.cons (.reg hrd) (.cons (.reg hrm) hrest))).trans
        (logic_shifted .orr true hshift)
    · exact hfull .orr true
  · split
    · next h =>
      subst h
      exact (assemble_line (m := "tst") rfl (.cons (.reg hrn) (.cons (.reg hrm) hrest))).trans
        (logic_shifted .ands false hshift)
    · exact hfull .ands false
  · exact hfull op inverted

lemma addSub_shifted (sub setFlags : Bool) {shift amount : Nat} (hshift : shift < 4) :
    addSub sub setFlags (.reg w rd false :: .reg w rn false :: .reg w rm false ::
      (shiftTokens shift amount).flatten) =
        some (.addSubShifted w sub setFlags shift amount rm rn rd) := by
  unfold shiftTokens
  split
  · next h =>
    obtain ⟨rfl, rfl⟩ := h
    rfl
  · simp only [List.flatten_cons, List.flatten_nil, List.append_nil, addSub, extendOf_shiftName hshift,
      shiftOf_name hshift]
    rfl

lemma assemble_addSubShifted (sub setFlags : Bool) {shift amount : Nat} (hshift : shift < 4)
    (hamount : amount < w.bits) (hrm : rm < 32) (hrn : rn < 32) (hrd : rd < 32) :
    assemble (Instr.addSubShifted w sub setFlags shift amount rm rn rd).text =
      some (.addSubShifted w sub setFlags shift amount rm rn rd) := by
  have hrest := lexes_shiftSuffix hshift hamount
  show assemble (addSubShiftedText w sub setFlags shift amount rm rn rd) = _
  simp only [addSubShiftedText]
  split
  · next h =>
    simp only [Bool.and_eq_true, beq_iff_eq] at h
    obtain ⟨rfl, rfl⟩ := h
    exact (assemble_line (lookup_compare sub) (.cons (.reg hrn) (.cons (.reg hrm) hrest))).trans
      (addSub_shifted sub true hshift)
  split
  · next h =>
    simp only [Bool.and_eq_true, beq_iff_eq] at h
    obtain ⟨rfl, rfl⟩ := h
    have hr : readers.lookup (if setFlags then "negs" else "neg") = some (negate setFlags) := by
      cases setFlags <;> rfl
    exact (assemble_line hr (.cons (.reg hrd) (.cons (.reg hrm) hrest))).trans
      (addSub_shifted true setFlags hshift)
  · exact (assemble_line (lookup_addSub sub setFlags) (.cons (.reg hrd) (.cons (.reg hrn)
      (.cons (.reg hrm) hrest)))).trans (addSub_shifted sub setFlags hshift)

/-- The tokens of an extension. -/
def extendTokens (option amount : Nat) : List Token :=
  if amount = 0 then [.word (extendName option)] else [.word (extendName option), .imm false amount]

lemma lexes_extendSuffix {option amount : Nat} (hoption : option < 8) (hamount : amount ≤ 4) :
    Lexes (extendSuffix option amount) (extendTokens option amount) := by
  unfold extendSuffix extendTokens
  split
  · exact lexes_extendName hoption
  · exact (lexes_extendName hoption).amount (Nat.lt_of_le_of_lt hamount (by decide))

lemma addSub_extended (sub setFlags stack stack' : Bool) {option amount : Nat} {x : Width}
    (hoption : option < 8) : addSub sub setFlags (.reg w rd stack :: .reg w rn stack' :: .reg x rm false ::
      extendTokens option amount) = some (.addSubExtended w sub setFlags option amount rm rn rd) := by
  unfold extendTokens
  split
  · next h =>
    show (extendOf? (extendName option)).map _ = _
    rw [extendOf_name hoption, h]
    rfl
  · simp only [addSub, extendOf_name hoption]

/-- With the stack pointer the natural extension is written as a left shift, or not at all. -/
lemma addSub_natural (sub setFlags : Bool) {stack stack' : Bool} {amount : Nat} {x : Width}
    (hstack : stack || stack') : addSub sub setFlags (.reg w rd stack :: .reg w rn stack' :: .reg x rm false ::
      (if amount = 0 then [] else [.word "lsl", .imm false amount])) =
        some (.addSubExtended w sub setFlags (natural w) amount rm rn rd) := by
  split
  · next h =>
    subst h
    exact if_pos hstack
  · exact if_pos hstack

/-- An index with the way it is extended. -/
lemma addSub_index (sub setFlags : Bool) (rm rn rd : Nat) {option amount : Nat} {x : Width} (hoption : option < 8)
    (hamount : amount ≤ 4) : ∃ tss, List.Forall₂ Lexes
      (if (rn = 31 ∨ (setFlags = false ∧ rd = 31)) ∧ option = natural w then
        if amount = 0 then [] else ["lsl " ++ unsigned amount]
      else [extendSuffix option amount]) tss ∧
      addSub sub setFlags (.reg w rd (!setFlags && rd == 31) :: .reg w rn (rn == 31) :: .reg x rm false ::
        tss.flatten) = some (.addSubExtended w sub setFlags option amount rm rn rd) := by
  split
  · next h =>
    obtain ⟨hstack, rfl⟩ := h
    have hstack' : (!setFlags && rd == 31) || rn == 31 := by
      rcases hstack with rfl | ⟨rfl, rfl⟩ <;> simp
    refine ⟨if amount = 0 then [] else [[.word "lsl", .imm false amount]], ?_, ?_⟩
    · by_cases h : amount = 0
      · rw [if_pos h, if_pos h]
        exact .nil
      · rw [if_neg h, if_neg h]
        exact .cons (.amount (a := "lsl") (.name rfl (by decide) rfl)
          (Nat.lt_of_le_of_lt hamount (by decide))) .nil
    · rw [← addSub_natural sub setFlags hstack']
      congr 4
      split <;> rfl
  · refine ⟨[extendTokens option amount], .cons (lexes_extendSuffix hoption hamount) .nil, ?_⟩
    rw [List.flatten_singleton, addSub_extended _ _ _ _ hoption]

lemma assemble_addSubExtended (sub setFlags : Bool) {option amount : Nat} (hoption : option < 8)
    (hamount : amount ≤ 4) (hrm : rm < 32) (hrn : rn < 32) (hrd : rd < 32) :
    assemble (Instr.addSubExtended w sub setFlags option amount rm rn rd).text =
      some (.addSubExtended w sub setFlags option amount rm rn rd) := by
  obtain ⟨tss, hlex, hread⟩ := addSub_index (w := w) sub setFlags rm rn rd
    (x := if w = .w64 ∧ option % 4 = 3 then .w64 else .w32) hoption hamount
  show assemble (addSubExtendedText w sub setFlags option amount rm rn rd) = _
  cases w
  all_goals
    unfold addSubExtendedText
    dsimp only
    split
    · next h =>
      simp only [Bool.and_eq_true, beq_iff_eq] at h
      obtain ⟨rfl, rfl⟩ := h
      exact (assemble_line (lookup_compare sub) (.cons (.regOrSp hrn) (.cons (.reg hrm) hlex))).trans hread
    · exact (assemble_line (lookup_addSub sub setFlags) (.cons (lexes_dest setFlags hrd)
        (.cons (.regOrSp hrn) (.cons (.reg hrm) hlex)))).trans hread

lemma assemble_addSubCarry (sub setFlags : Bool) (hrm : rm < 32) (hrn : rn < 32) (hrd : rd < 32) :
    assemble (Instr.addSubCarry w sub setFlags rm rn rd).text =
      some (.addSubCarry w sub setFlags rm rn rd) := by
  show assemble (addSubCarryText w sub setFlags rm rn rd) = _
  simp only [addSubCarryText]
  split
  · next h =>
    simp only [Bool.and_eq_true, beq_iff_eq] at h
    obtain ⟨rfl, rfl⟩ := h
    have hr : readers.lookup ("ngc" ++ if setFlags then "s" else "") = some (addSubCarry true setFlags) := by
      cases setFlags <;> rfl
    exact (assemble_line hr (.cons (.reg hrd) (.cons (.reg hrm) .nil))).trans rfl
  · have hr : readers.lookup ((if sub then "sbc" else "adc") ++ if setFlags then "s" else "") =
        some (addSubCarry sub setFlags) := by
      cases sub <;> cases setFlags <;> rfl
    exact (assemble_line hr (.cons (.reg hrd) (.cons (.reg hrn) (.cons (.reg hrm) .nil)))).trans rfl

lemma assemble_condCompare (sub : Bool) {second : CompareOperand} (cond : Cpu.Cond) {nzcv : Nat}
    (hsecond : match second with
      | .imm n => n < 32
      | .reg n => n < 32) (hnzcv : nzcv < 2 ^ 4) (hrn : rn < 32) :
    assemble (Instr.condCompare w sub second cond nzcv rn).text =
      some (.condCompare w sub second cond nzcv rn) := by
  have hr : readers.lookup (if sub then "ccmp" else "ccmn") = some (condCompare sub) := by cases sub <;> rfl
  have hrest := List.Forall₂.cons (Lexes.unsigned (Nat.lt_trans hnzcv (by decide)))
    (.cons (lexes_condName cond) .nil)
  cases second with
  | imm n =>
    refine (assemble_line hr (.cons (.reg hrn) (.cons (.unsigned (Nat.lt_trans hsecond (by decide))) hrest))).trans ?_
    show (condOf? cond.name).map _ = _
    rw [condOf_name]
    rfl
  | reg n =>
    refine (assemble_line hr (.cons (.reg hrn) (.cons (.reg hsecond) hrest))).trans ?_
    show (condOf? cond.name).map _ = _
    rw [condOf_name]
    rfl

/-- What is read from the name of the opposite condition. -/
lemma map_condOf_invert (cond : Cpu.Cond) (f : Cpu.Cond → Instr) :
    (condOf? cond.invert.name).map (fun c => f c.invert) = some (f cond) := by
  cases cond <;> rfl

lemma assemble_condSelect (invert increment : Bool) (cond : Cpu.Cond) (hrm : rm < 32) (hrn : rn < 32)
    (hrd : rd < 32) : assemble (Instr.condSelect w invert increment cond rm rn rd).text =
      some (.condSelect w invert increment cond rm rn rd) := by
  have hfull : assemble (line (condSelectName invert increment) [reg w rd, reg w rn, reg w rm, cond.name]) =
      some (.condSelect w invert increment cond rm rn rd) := by
    have hr : readers.lookup (condSelectName invert increment) = some (condSelect invert increment) := by
      cases invert <;> cases increment <;> rfl
    refine (assemble_line hr (.cons (.reg hrd) (.cons (.reg hrn) (.cons (.reg hrm)
      (.cons (lexes_condName cond) .nil))))).trans ?_
    show (condOf? cond.name).map _ = _
    rw [condOf_name]
    rfl
  have hname := lexes_condName cond.invert
  have hself : ∀ {m}, readers.lookup m = some (condSelect invert increment) → rn = rm →
      assemble (line m [reg w rd, reg w rn, cond.invert.name]) =
        some (.condSelect w invert increment cond rm rn rd) := by
    rintro m hm rfl
    exact (assemble_line hm (.cons (.reg hrd) (.cons (.reg hrn) (.cons hname .nil)))).trans
      (map_condOf_invert cond (.condSelect w invert increment · rn rn rd))
  have hset : ∀ {m}, readers.lookup m = some (condSelect invert increment) → rn = 31 → rn = rm →
      assemble (line m [reg w rd, cond.invert.name]) =
        some (.condSelect w invert increment cond rm rn rd) := by
    rintro m hm rfl rfl
    exact (assemble_line hm (.cons (.reg hrd) (.cons hname .nil))).trans
      (map_condOf_invert cond (.condSelect w invert increment · 31 31 rd))
  show assemble (condSelectText w invert increment cond rm rn rd) = _
  simp only [condSelectText]
  by_cases h : (!cond.isAlways && rn == rm) = true
  · rw [if_pos h]
    have hrnrm : rn = rm := beq_iff_eq.1 (Bool.and_eq_true_iff.1 h).2
    unfold condSelectAlias
    split
    · next name hname =>
      split at hname
      · cases hname
        exact hset (m := "cset") rfl rfl hrnrm
      · cases hname
        exact hset (m := "csetm") rfl rfl hrnrm
      · cases hname
        exact hself (m := "cinc") rfl hrnrm
      · cases hname
        exact hself (m := "cinv") rfl hrnrm
      · cases hname
        exact hself (m := "cneg") rfl hrnrm
      · cases hname
    · exact hfull
  · rw [if_neg h]
    exact hfull

lemma assemble_twoSource (op : TwoSourceOp) (hrm : rm < 32) (hrn : rn < 32) (hrd : rd < 32) :
    assemble (Instr.twoSource w op rm rn rd).text = some (.twoSource w op rm rn rd) := by
  have hr : ∃ byAmount, readers.lookup op.name = some (shift op byAmount) := by cases op <;> exact ⟨_, rfl⟩
  obtain ⟨byAmount, hr⟩ := hr
  exact (assemble_line hr (.cons (.reg hrd) (.cons (.reg hrn) (.cons (.reg hrm) .nil)))).trans rfl

lemma assemble_threeSource (product : Product) (sub : Bool) (hrm : rm < 32) (hra : ra < 32) (hrn : rn < 32)
    (hrd : rd < 32) : assemble (Instr.threeSource w product sub rm ra rn rd).text =
      some (.threeSource w product sub rm ra rn rd) := by
  have hr : readers.lookup (product.names sub).1 = some (threeSource product sub) ∧
      readers.lookup (product.names sub).2 = some (threeSource product sub) := by
    cases product with
    | plain => cases sub <;> exact ⟨rfl, rfl⟩
    | long signed => cases signed <;> cases sub <;> exact ⟨rfl, rfl⟩
  have hread : ∀ x, assemble (if ra = 31 then line (product.names sub).2 [reg w rd, reg x rn, reg x rm]
      else line (product.names sub).1 ([reg w rd, reg x rn, reg x rm] ++ [reg w ra])) =
        some (.threeSource w product sub rm ra rn rd) := fun x => by
    split
    · next h =>
      subst h
      exact (assemble_line hr.2 (.cons (.reg hrd) (.cons (.reg hrn) (.cons (.reg hrm) .nil)))).trans rfl
    · exact (assemble_line hr.1 (.cons (.reg hrd) (.cons (.reg hrn) (.cons (.reg hrm)
        (.cons (.reg hra) .nil))))).trans rfl
  cases product with
  | plain => exact hread w
  | long signed => exact hread .w32

/-! ### Instructions -/

/-- The text of an instruction is read as its plain form. -/
lemma assemble_text {i : Instr} (h : i.Encodable) (hplaced : ¬ i.Misplaced) :
    assemble i.text = some i.plain := by
  cases i with
  | branchCond consistent cond offset => exact assemble_branchCond consistent cond offset
  | compareBranch w nonzero rt offset => exact assemble_compareBranch nonzero offset h
  | testBranch nonzero bit rt offset => exact assemble_testBranch nonzero offset h.1 h.2
  | branch link offset => exact assemble_branch link offset
  | branchReg link rn => exact assemble_branchReg link h
  | ret rn => exact assemble_ret h
  | exceptionReturn => exact assemble_exceptionReturn
  | exception kind imm => exact assemble_exception kind h
  | hint number => exact assemble_hint h
  | barrier kind option => exact assemble_barrier kind h
  | writePstate field imm => exact assemble_writePstate field h
  | sys op1 crn crm op2 rt => exact assemble_sys h.1 h.2.1 h.2.2.1 h.2.2.2.1 h.2.2.2.2
  | writeSysReg selector rt => exact assemble_writeSysReg selector h
  | readSysReg selector rt => exact assemble_readSysReg selector h
  | literal transfer size rt offset => exact assemble_literal offset h.1 h.2
  | access transfer size unscaled mode offset rn rt =>
    exact assemble_access unscaled mode offset h.1 h.2.1 h.2.2
  | accessIndexed transfer size option scaled rm rn rt =>
    exact assemble_accessIndexed scaled h.1 h.2.1 h.2.2.1 h.2.2.2.1 h.2.2.2.2
  | pair load nonTemporal size signed mode offset rt2 rn rt =>
    exact assemble_pair mode offset h.1 h.2.1 h.2.2.1 h.2.2.2
  | address page offset rd => exact assemble_address page offset h
  | addSubImm w sub setFlags shifted imm rn rd =>
    exact assemble_addSubImm sub setFlags shifted h.1 h.2.1 h.2.2
  | logicalImm w op imm rn rd => exact assemble_logicalImm op imm h.1 h.2
  | moveWide w op shift imm rd => exact assemble_moveWide op h.1 h.2.1 h.2.2
  | bitfield w op immr imms wmask tmask rn rd =>
    exact assemble_bitfield op h.1 h.2.1 h.2.2.1 h.2.2.2.1 h.2.2.2.2 hplaced
  | extract w lsb rm rn rd => exact assemble_extract h.1 h.2.1 h.2.2.1 h.2.2.2
  | logicalReg w op inverted shift amount rm rn rd =>
    exact assemble_logicalReg op inverted h.1 h.2.1 h.2.2.1 h.2.2.2.1 h.2.2.2.2
  | addSubShifted w sub setFlags shift amount rm rn rd =>
    exact assemble_addSubShifted sub setFlags h.1 h.2.1 h.2.2.1 h.2.2.2.1 h.2.2.2.2
  | addSubExtended w sub setFlags option amount rm rn rd =>
    exact assemble_addSubExtended sub setFlags h.1 h.2.1 h.2.2.1 h.2.2.2.1 h.2.2.2.2
  | addSubCarry w sub setFlags rm rn rd => exact assemble_addSubCarry sub setFlags h.1 h.2.1 h.2.2
  | condCompare w sub second cond nzcv rn => exact assemble_condCompare sub cond h.1 h.2.1 h.2.2
  | condSelect w invert increment cond rm rn rd =>
    exact assemble_condSelect invert increment cond h.1 h.2.1 h.2.2
  | twoSource w op rm rn rd => exact assemble_twoSource op h.1 h.2.1 h.2.2
  | threeSource w product sub rm ra rn rd =>
    exact assemble_threeSource product sub h.2.1 h.2.2.1 h.2.2.2.1 h.2.2.2.2

/-- A word of data is no line of an instruction. -/
lemma assemble_data (word : UInt32) : assemble (data word) = none := by
  have hplain : (Text.hexPadded 8 word.toNat).toList.all Token.isPlain := by
    rw [Text.hexPadded, String.toList_ofList, Text.paddedDigits]
    simp only [List.all_cons, List.all_append, Bool.and_eq_true]
    refine ⟨rfl, rfl, List.all_eq_true.2 fun c hc => ?_, List.all_eq_true.2 fun c hc => ?_⟩
    · rw [List.eq_of_mem_replicate hc]
      rfl
    · obtain ⟨d, hd, rfl⟩ := Text.mem_toDigits (by decide) hc
      have hall : ∀ d < 16, Token.isPlain (Nat.digitChar d) := by decide
      exact hall d hd
  have hlex : Lexes (data word) [.word ".inst", Token.ofWord (Text.hexPadded 8 word.toNat)] :=
    Lexes.space (a := ".inst") (.name rfl (by decide) rfl) (.word hplain (by
      rw [Text.hexPadded, Ne, ← String.toList_inj, String.toList_ofList]
      nofun))
  rw [assemble, hlex.ofLine]
  rfl

end Instr.Assembler

end Dynarec
