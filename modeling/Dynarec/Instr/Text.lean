import Dynarec.Cpu.SysReg
import Dynarec.Instr.Basic

/-!
# Instruction text

How an instruction is written in a listing: its mnemonic and operands, with the preferred alias
where there is one. A move, a comparison, a shift, an extension of a bitfield and a conditional
increment are aliases of more general instructions, chosen by their operands.
-/

namespace Dynarec.Instr

open Operand

/-- The name of an exception instruction. -/
def ExceptionKind.name : ExceptionKind → String
  | .svc => "svc"
  | .hvc => "hvc"
  | .smc => "smc"
  | .brk => "brk"
  | .hlt => "hlt"

/-- The name of a processor field. -/
def PstateField.name : PstateField → String
  | .spsel => "spsel"
  | .daifSet => "daifset"
  | .daifClr => "daifclr"

/-- The name of a bitwise operation, with its second operand inverted or not. -/
def LogicOp.name : LogicOp → Bool → String
  | .and, false => "and"
  | .and, true => "bic"
  | .orr, false => "orr"
  | .orr, true => "orn"
  | .eor, false => "eor"
  | .eor, true => "eon"
  | .ands, false => "ands"
  | .ands, true => "bics"

/-- The name of an operation on two registers. -/
def TwoSourceOp.name : TwoSourceOp → String
  | .udiv => "udiv"
  | .sdiv => "sdiv"
  | .lsl => "lsl"
  | .lsr => "lsr"
  | .asr => "asr"
  | .ror => "ror"

/-- The names of a multiply-add with and without an addend. -/
def Product.names : Product → Bool → String × String
  | .plain, false => ("madd", "mul")
  | .plain, true => ("msub", "mneg")
  | .long true, false => ("smaddl", "smull")
  | .long true, true => ("smsubl", "smnegl")
  | .long false, false => ("umaddl", "umull")
  | .long false, true => ("umsubl", "umnegl")

/-- The name of an addition or a subtraction. -/
def addSubName : (sub setFlags : Bool) → String
  | false, false => "add"
  | false, true => "adds"
  | true, false => "sub"
  | true, true => "subs"

/-- The text of a hint. -/
def hintText : Nat → String
  | 0 => "nop"
  | 1 => "yield"
  | 2 => "wfe"
  | 3 => "wfi"
  | 4 => "sev"
  | 5 => "sevl"
  | n => line "hint" [unsigned n]

/-- The scope of a barrier. -/
def barrierScope : Nat → String
  | 15 => "sy"
  | 14 => "st"
  | 13 => "ld"
  | 11 => "ish"
  | 10 => "ishst"
  | 9 => "ishld"
  | 7 => "nsh"
  | 6 => "nshst"
  | 5 => "nshld"
  | 3 => "osh"
  | 2 => "oshst"
  | 1 => "oshld"
  | n => unsigned n

/-- The text of a barrier. -/
def barrierText : Barrier → Nat → String
  | .clrex, 15 => "clrex"
  | .clrex, n => line "clrex" [unsigned n]
  | .dsb, 0 => "ssbb"
  | .dsb, 4 => "pssbb"
  | .dsb, n => line "dsb" [barrierScope n]
  | .dmb, n => line "dmb" [barrierScope n]
  | .isb, 15 => "isb"
  | .isb, n => line "isb" [unsigned n]

/-- The ending that tells the size of an access. -/
def sizeSuffix : AccessSize → String
  | .byte => "b"
  | .half => "h"
  | .word => ""
  | .double => ""

/-- The name of a memory instruction. -/
def accessName (transfer : Transfer) (size : AccessSize) (unscaled : Bool) : String :=
  let letter := if unscaled then "u" else ""
  match transfer with
  | .store => "st" ++ letter ++ "r" ++ sizeSuffix size
  | .load _ false => "ld" ++ letter ++ "r" ++ sizeSuffix size
  | .load _ true =>
    "ld" ++ letter ++ "rs" ++ (match size with | .byte => "b" | .half => "h" | _ => "w")
  | .prefetch => if unscaled then "prfum" else "prfm"

/-- The name of a prefetch operation; one without a name is written as its number. -/
def prefetchName (rt : Nat) : String :=
  let policy := if rt % 2 = 0 then "keep" else "strm"
  let level := match rt / 2 % 4 with
    | 0 => some "l1"
    | 1 => some "l2"
    | 2 => some "l3"
    | _ => none
  let kind := match rt / 8 with
    | 0 => some "pld"
    | 1 => some "pli"
    | 2 => some "pst"
    | _ => none
  match kind, level with
  | some kind, some level => kind ++ level ++ policy
  | _, _ => unsigned rt

/-- The register, or the prefetch operation, that a memory instruction names first. -/
def transferOperand (transfer : Transfer) (size : AccessSize) (rt : Nat) : String :=
  match transfer with
  | .store => reg (if size = .double then .w64 else .w32) rt
  | .load width _ => reg width rt
  | .prefetch => prefetchName rt

/-- The text of an extension by `option`, shifted by an amount unless it is zero. -/
def extendSuffix (option amount : Nat) : String :=
  if amount = 0 then extendName option else extendName option ++ " " ++ unsigned amount

/-- The address of an access whose offset is a register. -/
def indexedAddress (size : AccessSize) (option : Nat) (scaled : Bool) (rm rn : Nat) : String :=
  let index := match option, scaled with
    | 3, false => []
    | 3, true => ["lsl " ++ unsigned size.log2]
    | _, false => [extendName option]
    | _, true => [extendName option ++ " " ++ unsigned size.log2]
  let parts := [regOrSp .w64 rn, reg (.ofSizeBit option) rm] ++ index
  "[" ++ ", ".intercalate parts ++ "]"

/-- Whether moving a logical immediate into a register is written as a wide move instead. -/
def LogicalImmediate.isWideMove (width : Width) (i : LogicalImmediate) : Bool :=
  let sized := match width with
    | .w64 => i.n == 1
    | .w32 => i.n == 0 && i.imms < 32
  sized &&
    if i.imms < 16 then (16 - i.immr % 16) % 16 ≤ 15 - i.imms
    else width.bits - 15 ≤ i.imms && i.immr % 16 ≤ i.imms - (width.bits - 15)

/-- The text of an addition or subtraction of an immediate. -/
def addSubImmText (width : Width) (sub setFlags shifted : Bool) (imm rn rd : Nat) : String :=
  let rest := unsigned imm :: if shifted then ["lsl #0xc"] else []
  if !sub && !setFlags && !shifted && imm == 0 && (rd == 31 || rn == 31) then
    line "mov" [regOrSp width rd, regOrSp width rn]
  else if setFlags && rd == 31 then
    line (if sub then "cmp" else "cmn") (regOrSp width rn :: rest)
  else
    let rd := if setFlags then reg width rd else regOrSp width rd
    line (addSubName sub setFlags) (rd :: regOrSp width rn :: rest)

/-- The text of a bitwise operation with an immediate. -/
def logicalImmText (width : Width) (op : LogicOp) (imm : LogicalImmediate) (rn rd : Nat) : String :=
  let value := unsigned imm.value.toNat
  if op = .ands ∧ rd = 31 then line "tst" [reg width rn, value]
  else if op = .orr ∧ rn = 31 ∧ ¬ imm.isWideMove width then line "mov" [regOrSp width rd, value]
  else
    let rd := if op = .ands then reg width rd else regOrSp width rd
    line (op.name false) [rd, reg width rn, value]

/-- The text of a wide move. -/
def moveWideText (width : Width) (op : MoveWideOp) (shift imm rd : Nat) : String :=
  let value := UInt64.ofNat imm <<< UInt64.ofNat shift
  let whole := imm ≠ 0 ∨ shift = 0
  let rest := unsigned imm :: if shift = 0 then [] else ["lsl " ++ unsigned shift]
  match op with
  | .movz =>
    if whole then line "mov" [reg width rd, unsigned value.toNat]
    else line "movz" (reg width rd :: rest)
  | .movn =>
    if whole ∧ (width = .w64 ∨ imm ≠ 0xffff) then
      line "mov" [reg width rd, signed (Bits.signExtend (~~~value &&& width.mask) width.bits)]
    else line "movn" (reg width rd :: rest)
  | .movk => line "movk" (reg width rd :: rest)

/-- Whether a bitfield move is written as an extraction of a bitfield. -/
def isBitfieldExtract (width : Width) (signed : Bool) (immr imms : Nat) : Bool :=
  immr ≤ imms && imms != width.bits - 1 &&
    !(immr == 0 &&
      match width with
      | .w32 => imms == 7 || imms == 15
      | .w64 => signed && (imms == 7 || imms == 15 || imms == 31))

/-- The text of a bitfield move. -/
def bitfieldText (width : Width) (op : BitfieldOp) (immr imms rn rd : Nat) : String :=
  let d := reg width rd
  let s := reg width rn
  let top := width.bits - 1
  let insert := [unsigned ((width.bits - immr) % width.bits), unsigned (imms + 1)]
  let extract := [unsigned immr, unsigned (imms - immr + 1)]
  match op with
  | .sbfm =>
    if imms = top then line "asr" [d, s, unsigned immr]
    else if imms < immr then line "sbfiz" (d :: s :: insert)
    else if isBitfieldExtract width true immr imms then line "sbfx" (d :: s :: extract)
    else if immr = 0 ∧ imms = 7 then line "sxtb" [d, reg .w32 rn]
    else if immr = 0 ∧ imms = 15 then line "sxth" [d, reg .w32 rn]
    else if immr = 0 ∧ imms = 31 then line "sxtw" [d, reg .w32 rn]
    else line "sbfm" [d, s, unsigned immr, unsigned imms]
  | .bfm =>
    if imms < immr then
      if rn = 31 then line "bfc" (d :: insert) else line "bfi" (d :: s :: insert)
    else line "bfxil" (d :: s :: extract)
  | .ubfm =>
    if imms ≠ top ∧ imms + 1 = immr then line "lsl" [d, s, unsigned (top - imms)]
    else if imms = top then line "lsr" [d, s, unsigned immr]
    else if imms < immr then line "ubfiz" (d :: s :: insert)
    else if isBitfieldExtract width false immr imms then line "ubfx" (d :: s :: extract)
    else if immr = 0 ∧ imms = 7 then line "uxtb" [d, reg .w32 rn]
    else if immr = 0 ∧ imms = 15 then line "uxth" [d, reg .w32 rn]
    else line "ubfm" [d, s, unsigned immr, unsigned imms]

/-- The text of a bitwise operation with a register. -/
def logicalRegText (width : Width) (op : LogicOp) (inverted : Bool)
    (shift amount rm rn rd : Nat) : String :=
  let r := reg width
  let rest := shiftSuffix shift amount
  match op, inverted with
  | .orr, false =>
    if rn = 31 ∧ shift = 0 ∧ amount = 0 then line "mov" [r rd, r rm]
    else line "orr" ([r rd, r rn, r rm] ++ rest)
  | .orr, true =>
    if rn = 31 then line "mvn" ([r rd, r rm] ++ rest) else line "orn" ([r rd, r rn, r rm] ++ rest)
  | .ands, false =>
    if rd = 31 then line "tst" ([r rn, r rm] ++ rest) else line "ands" ([r rd, r rn, r rm] ++ rest)
  | op, inverted => line (op.name inverted) ([r rd, r rn, r rm] ++ rest)

/-- The text of an addition or subtraction of a shifted register. -/
def addSubShiftedText (width : Width) (sub setFlags : Bool) (shift amount rm rn rd : Nat) :
    String :=
  let r := reg width
  let rest := shiftSuffix shift amount
  if setFlags && rd == 31 then line (if sub then "cmp" else "cmn") ([r rn, r rm] ++ rest)
  else if sub && rn == 31 then line (if setFlags then "negs" else "neg") ([r rd, r rm] ++ rest)
  else line (addSubName sub setFlags) ([r rd, r rn, r rm] ++ rest)

/-- The text of an addition or subtraction of an extended register. With the stack pointer the
extension that keeps the register whole is written as a left shift, and not at all by zero. -/
def addSubExtendedText (width : Width) (sub setFlags : Bool) (option amount rm rn rd : Nat) :
    String :=
  let index := reg (if width = .w64 ∧ option % 4 = 3 then .w64 else .w32) rm
  let natural := match width with
    | .w32 => 2
    | .w64 => 3
  let rest :=
    if (rn = 31 ∨ (setFlags = false ∧ rd = 31)) ∧ option = natural then
      if amount = 0 then [] else ["lsl " ++ unsigned amount]
    else [extendSuffix option amount]
  if setFlags && rd == 31 then
    line (if sub then "cmp" else "cmn") ([regOrSp width rn, index] ++ rest)
  else
    let rd := if setFlags then reg width rd else regOrSp width rd
    line (addSubName sub setFlags) ([rd, regOrSp width rn, index] ++ rest)

/-- The text of an addition or subtraction with carry. -/
def addSubCarryText (width : Width) (sub setFlags : Bool) (rm rn rd : Nat) : String :=
  let r := reg width
  let s := if setFlags then "s" else ""
  if sub && rn == 31 then line ("ngc" ++ s) [r rd, r rm]
  else line ((if sub then "sbc" else "adc") ++ s) [r rd, r rn, r rm]

/-- The alias of a conditional select of a register with itself, if it has one. -/
def condSelectAlias : (invert increment : Bool) → (rn : Nat) → Option String
  | false, true, 31 => some "cset"
  | true, false, 31 => some "csetm"
  | false, true, _ => some "cinc"
  | true, false, _ => some "cinv"
  | true, true, _ => some "cneg"
  | false, false, _ => none

/-- The name of a conditional select. -/
def condSelectName : (invert increment : Bool) → String
  | false, false => "csel"
  | false, true => "csinc"
  | true, false => "csinv"
  | true, true => "csneg"

/-- The text of a conditional select. -/
def condSelectText (width : Width) (invert increment : Bool) (cond : Cpu.Cond) (rm rn rd : Nat) :
    String :=
  let r := reg width
  let alias? := if !cond.isAlways && rn == rm then condSelectAlias invert increment rn else none
  match alias? with
  | some name =>
    let source := if name = "cset" ∨ name = "csetm" then [] else [r rn]
    line name (r rd :: source ++ [cond.invert.name])
  | none => line (condSelectName invert increment) [r rd, r rn, r rm, cond.name]

end Dynarec.Instr

namespace Dynarec

open Instr Instr.Operand in
/-- The text of an instruction. -/
def Instr.text : Instr → String
  | .branchCond consistent cond offset =>
    line ((if consistent then "bc." else "b.") ++ cond.name) [signed offset]
  | .compareBranch width nonzero rt offset =>
    line (if nonzero then "cbnz" else "cbz") [reg width rt, signed offset]
  | .testBranch nonzero bit rt offset =>
    line (if nonzero then "tbnz" else "tbz")
      [reg (if bit < 32 then .w32 else .w64) rt, unsigned bit, signed offset]
  | .branch link offset => line (if link then "bl" else "b") [signed offset]
  | .branchReg link rn => line (if link then "blr" else "br") [reg .w64 rn]
  | .ret rn => if rn = 30 then "ret" else line "ret" [reg .w64 rn]
  | .exceptionReturn => "eret"
  | .exception kind imm => line kind.name [unsigned imm]
  | .hint number => hintText number
  | .barrier kind option => barrierText kind option
  | .writePstate field imm => line "msr" [field.name, unsigned imm]
  | .sys op1 crn crm op2 rt =>
    line "sys" ([unsigned op1, s!"c{crn}", s!"c{crm}", unsigned op2] ++
      if rt = 31 then [] else [reg .w64 rt])
  | .writeSysReg selector rt => line "msr" [Cpu.SysReg.name selector, reg .w64 rt]
  | .readSysReg selector rt => line "mrs" [reg .w64 rt, Cpu.SysReg.name selector]
  | .literal transfer size rt offset =>
    let name := match transfer with
      | .load _ true => "ldrsw"
      | .prefetch => "prfm"
      | _ => "ldr"
    line name [transferOperand transfer size rt, signed offset]
  | .access transfer size unscaled mode offset rn rt =>
    line (accessName transfer size unscaled)
      [transferOperand transfer size rt, memory rn offset mode]
  | .accessIndexed transfer size option scaled rm rn rt =>
    line (accessName transfer size false)
      [transferOperand transfer size rt, indexedAddress size option scaled rm rn]
  | .pair load nonTemporal size isSigned mode offset rt2 rn rt =>
    let name := match nonTemporal, load, isSigned with
      | true, false, _ => "stnp"
      | true, true, _ => "ldnp"
      | false, false, _ => "stp"
      | false, true, true => "ldpsw"
      | false, true, false => "ldp"
    let r := reg (if size = .double ∨ isSigned then .w64 else .w32)
    line name [r rt, r rt2, memory rn offset mode]
  | .address page offset rd => line (if page then "adrp" else "adr") [reg .w64 rd, signed offset]
  | .addSubImm width sub setFlags shifted imm rn rd =>
    addSubImmText width sub setFlags shifted imm rn rd
  | .logicalImm width op imm rn rd => logicalImmText width op imm rn rd
  | .moveWide width op shift imm rd => moveWideText width op shift imm rd
  | .bitfield width op immr imms _ _ rn rd => bitfieldText width op immr imms rn rd
  | .extract width lsb rm rn rd =>
    let r := reg width
    if rn = rm then line "ror" [r rd, r rn, unsigned lsb]
    else line "extr" [r rd, r rn, r rm, unsigned lsb]
  | .logicalReg width op inverted shift amount rm rn rd =>
    logicalRegText width op inverted shift amount rm rn rd
  | .addSubShifted width sub setFlags shift amount rm rn rd =>
    addSubShiftedText width sub setFlags shift amount rm rn rd
  | .addSubExtended width sub setFlags option amount rm rn rd =>
    addSubExtendedText width sub setFlags option amount rm rn rd
  | .addSubCarry width sub setFlags rm rn rd => addSubCarryText width sub setFlags rm rn rd
  | .condCompare width sub second cond nzcv rn =>
    let second := match second with
      | .imm n => unsigned n
      | .reg n => reg width n
    line (if sub then "ccmp" else "ccmn") [reg width rn, second, unsigned nzcv, cond.name]
  | .condSelect width invert increment cond rm rn rd =>
    condSelectText width invert increment cond rm rn rd
  | .twoSource width op rm rn rd => line op.name [reg width rd, reg width rn, reg width rm]
  | .threeSource width product sub rm ra rn rd =>
    let (name, withoutAddend) := product.names sub
    let source := match product with
      | .plain => reg width
      | .long _ => reg .w32
    let operands := [reg width rd, source rn, source rm]
    if ra = 31 then line withoutAddend operands else line name (operands ++ [reg width ra])

end Dynarec
