import Dynarec.Compiler.Arithmetic
import Dynarec.Instr.Forms
import Dynarec.Instr.Text

/-!
# Instructions in intermediate code

The operations that every instruction is compiled to. Registers that an instruction reads after it
has written another one are copied first, scratch locals are given back as soon as their value is
used, and an instruction that leaves the block ends it.
-/

namespace Dynarec.Compiler

open Instr
open Ir (BinOp CmpOp Place Operand Local)

/-! ### Branches -/

/-- Go to an address if a new local, which is given back, is not zero. -/
def gotoIf (target : UInt64) (taken : Local) : EmitM Unit := do
  goto target (some (.place taken))
  release taken

/-- The comparison with zero that a branch on a value makes. -/
def zeroTest (nonzero : Bool) : CmpOp := if nonzero then .ne else .eq

/-- Branch to a displacement if a condition holds. -/
def branchCond (cond : Cpu.Cond) (offset : UInt64) : EmitM Unit := do
  let target := (← currentPc) + offset
  if cond.isAlways then goto target none else gotoIf target (← condHolds cond)

/-- Branch to a displacement if a register is zero, or if it is not. -/
def compareBranch (width : Width) (nonzero : Bool) (rt : Nat) (offset : UInt64) : EmitM Unit := do
  let target := (← currentPc) + offset
  let taken ← alloc .i32
  cmp taken (zeroTest nonzero) width (gpr rt) (.imm 0)
  gotoIf target taken

/-- Branch to a displacement if a bit of a register is clear, or if it is set. -/
def testBranch (nonzero : Bool) (bit rt : Nat) (offset : UInt64) : EmitM Unit := do
  let target := (← currentPc) + offset
  let value ← alloc .i64
  bin value .shrU .w64 (gpr rt) (const bit)
  bin value .and .w64 (.place value) (.imm 1)
  let taken ← alloc .i32
  cmp taken (zeroTest nonzero) .w64 (.place value) (.imm 0)
  release value
  gotoIf target taken

/-- Call the function of an address through its slot. -/
def call (target link : UInt64) : EmitM Unit := do
  let slot ← functionSlot target
  move (some (.x 30)) (.imm link) .w64
  let returned ← alloc .i64
  emit (.call returned slot)
  returnUnless returned link
  release returned

/-- Branch to a displacement; with a link, call the function there. -/
def branch (link : Bool) (offset : UInt64) : EmitM Unit := do
  let pc ← currentPc
  if link then call (pc + offset) (pc + 4) else goto (pc + offset) none

/-- Run the function of the address in a register, and return what it returns. -/
def jumpReg (rn : Nat) : EmitM Unit := do
  let returned ← alloc .i64
  emit (.jump returned (gpr rn))
  emit (.ret (.place returned))
  release returned
  stop

/-- Call the function of the address in a register, which is read before the link is written. -/
def callReg (rn : Nat) : EmitM Unit := do
  let target ← copy (gpr rn)
  let link := (← currentPc) + 4
  move (some (.x 30)) (.imm link) .w64
  let returned ← alloc .i64
  emit (.jump returned (.place target))
  release target
  returnUnless returned link
  release returned

/-- Return to the address in a register. -/
def returnTo (rn : Nat) : EmitM Unit := do
  emit (.ret (gpr rn))
  stop

/-- The flags with their bits in a saved status. -/
def statusBits : List (Cpu.Flag × Nat) := [(.n, 31), (.z, 30), (.c, 29), (.v, 28)]

/-- Write the flags from their bits in a value. -/
def unpackFlags (t : Local) (value : Operand) : EmitM Unit :=
  statusBits.forM fun (flag, bit) => do
    bin t .shrU .w64 value (const bit)
    bin (.flag flag) .and .w64 (.place t) (.imm 1)

/-- Return from an exception. Both banked registers are read before the level changes. -/
def exceptionReturn : EmitM Unit := do
  let spsr ← copy (.place (.spsr .current))
  let elr ← copy (.place (.elr .current))
  let t ← alloc .i64
  unpackFlags t (.place spsr)
  bin .spsel .and .w64 (.place spsr) (.imm 1)
  bin t .shrU .w64 (.place spsr) (.imm 2)
  bin .el .and .w64 (.place t) (.imm 3)
  emit (.ret (.place elr))
  releaseAll [spsr, elr, t]
  stop

/-! ### System registers -/

/-- Write an immediate to a processor field; the masks of interrupts start at bit six. -/
def writePstate (field : PstateField) (imm : Nat) : EmitM Unit :=
  let bits := UInt64.ofNat imm <<< 6
  match field with
  | .spsel => move (some .spsel) (const (imm % 2)) .w64
  | .daifSet => bin .daif .or .w64 (.place .daif) (.imm bits)
  | .daifClr => bin .daif .and .w64 (.place .daif) (.imm (~~~bits &&& Cpu.SysReg.daifMask))

/-- Write through a binding. -/
def writeBinding (value : Operand) : Cpu.SysReg.Binding → EmitM Unit
  | .const _ | .currentEl => pure ()
  | .spsel => bin .spsel .and .w64 value (.imm 1)
  | .daif => bin .daif .and .w64 value (.imm Cpu.SysReg.daifMask)
  | .nzcv => do
    let t ← alloc .i64
    unpackFlags t value
    release t
  | .backed slot => move (some (.sys slot)) value .w64
  | .stackPointer el => move (some (.spEl el)) value .w64
  | .elr el => move (some (.elr (.level el))) value .w64
  | .spsr el => move (some (.spsr (.level el))) value .w64

/-- Write a system register; nothing happens to one that cannot be written. -/
def writeSysReg (selector rt : Nat) : EmitM Unit :=
  match (Cpu.SysReg.lookup selector).bind (·.write) with
  | some binding => writeBinding (gpr rt) binding
  | none => pure ()

/-- Read through a binding. -/
def readBinding (rt : Place) : Cpu.SysReg.Binding → EmitM Unit
  | .const value => move (some rt) (.imm value) .w64
  | .backed slot => move (some rt) (.place (.sys slot)) .w64
  | .spsel => move (some rt) (.place .spsel) .w64
  | .daif => move (some rt) (.place .daif) .w64
  | .stackPointer el => move (some rt) (.place (.spEl el)) .w64
  | .elr el => move (some rt) (.place (.elr (.level el))) .w64
  | .spsr el => move (some rt) (.place (.spsr (.level el))) .w64
  | .currentEl => bin rt .shl .w64 (.place .el) (.imm 2)
  | .nzcv => do
    let sum ← alloc .i64
    let t ← alloc .i64
    move (some sum) (.imm 0) .w64
    statusBits.forM fun (flag, bit) => do
      bin t .shl .w64 (.place (.flag flag)) (const bit)
      bin sum .or .w64 (.place sum) (.place t)
    move (some rt) (.place sum) .w64
    release t
    release sum

/-- Read a system register; one that cannot be read is zero. -/
def readSysReg (selector rt : Nat) : EmitM Unit :=
  match dest rt with
  | none => pure ()
  | some rt =>
    match (Cpu.SysReg.lookup selector).bind (·.read) with
    | some binding => readBinding rt binding
    | none => move (some rt) (.imm 0) .w64

/-! ### Loads and stores -/

/-- Load into a new local, extended with the sign of what is loaded if asked for. -/
def load (addr : Operand) (size : AccessSize) (signed : Bool) : EmitM Local := do
  let value ← alloc .i64
  emit (.load size value addr)
  if signed ∧ size ≠ .double then emit (.extend (size.bytes * 8) true value (.place value))
  return value

/-- Do at an address what a memory instruction does. -/
def transferAt (transfer : Transfer) (size : AccessSize) (rt : Nat) (addr : Operand) :
    EmitM Unit :=
  match transfer with
  | .prefetch => pure ()
  | .store => emit (.store size addr (gpr rt))
  | .load width signed => do
    let value ← load addr size signed
    move (dest rt) (.place value) width
    release value

/-- Do something at the address of a base and an offset, and move the base if the mode asks for
it. -/
def addressed (rn : Nat) (offset : UInt64) (mode : AddrMode) (act : Operand → EmitM Unit) :
    EmitM Unit := do
  if mode = .offset ∧ offset = 0 then act (gprOrSp rn)
  else
    let addr ← alloc .i64
    bin addr .add .w64 (gprOrSp rn) (.imm offset)
    act (if mode = .postIndex then gprOrSp rn else .place addr)
    if mode ≠ .offset then move (some (placeOrSp rn)) (.place addr) .w64
    release addr

/-- Load from a displacement. -/
def literal (transfer : Transfer) (size : AccessSize) (rt : Nat) (offset : UInt64) :
    EmitM Unit := do
  transferAt transfer size rt (.imm ((← currentPc) + offset))

/-- Load or store at a base and an extended register, which may be scaled by the size. -/
def accessIndexed (transfer : Transfer) (size : AccessSize) (option : Nat) (scaled : Bool)
    (rm rn rt : Nat) : EmitM Unit := do
  let addr ← extended (gpr rm) option (if scaled then size.log2 else 0)
  bin addr .add .w64 (gprOrSp rn) (.place addr)
  transferAt transfer size rt (.place addr)
  release addr

/-- Load or store two registers next to each other; both are loaded before one is written. -/
def pairAt (isLoad : Bool) (size : AccessSize) (signed : Bool) (rt2 rt : Nat) (addr : Operand) :
    EmitM Unit := do
  let second ← alloc .i64
  bin second .add .w64 addr (const size.bytes)
  if isLoad then
    let width := if size = .double ∨ signed then Width.w64 else .w32
    let first ← load addr size signed
    let last ← load (.place second) size signed
    move (dest rt) (.place first) width
    move (dest rt2) (.place last) width
    releaseAll [first, last, second]
  else
    emit (.store size addr (gpr rt))
    emit (.store size (.place second) (gpr rt2))
    release second

/-! ### Operations on immediates -/

/-- Put an address into a register; a page counts from the page of the instruction. -/
def address (page : Bool) (offset : UInt64) (rd : Nat) : EmitM Unit := do
  let pc ← currentPc
  let base := if page then pc &&& ~~~0xfff else pc
  move (dest rd) (.imm (base + offset)) .w64

/-- Add or subtract an immediate. To set the flags, a difference is the sum with the
complement and a carry. -/
def addSubImm (width : Width) (sub setFlags isShifted : Bool) (imm rn rd : Nat) : EmitM Unit := do
  let value := UInt64.ofNat (if isShifted then imm * 4096 else imm)
  let x := gprOrSp rn
  if setFlags then
    let y := if sub then ~~~value &&& width.mask else value
    let result ← addCarryFlags width x (.imm y) (const sub.toNat)
    move (dest rd) (.place result) width
    release result
  else bin (placeOrSp rd) (if sub then .sub else .add) width x (.imm value)

/-- The operator of a bitwise operation. -/
def logicBinOp : LogicOp → BinOp
  | .orr => .or
  | .eor => .xor
  | .and | .ands => .and

/-- Combine a register with a logical immediate. -/
def logicalImm (width : Width) (op : LogicOp) (value : UInt64) (rn rd : Nat) : EmitM Unit := do
  if op = .ands then
    let result ← alloc .i64
    bin result (logicBinOp op) width (gpr rn) (.imm value)
    setLogicalFlags width (.place result)
    move (dest rd) (.place result) width
    release result
  else bin (placeOrSp rd) (logicBinOp op) width (gpr rn) (.imm value)

/-- Move an immediate into a register. -/
def moveWide (width : Width) (op : MoveWideOp) (shift imm rd : Nat) : EmitM Unit :=
  match dest rd with
  | none => pure ()
  | some rd => do
    let value := UInt64.ofNat imm <<< UInt64.ofNat shift
    match op with
    | .movn => move (some rd) (.imm (~~~value &&& width.mask)) width
    | .movz => move (some rd) (.imm value) width
    | .movk =>
      bin rd .and width (.place rd) (.imm (~~~((0xffff : UInt64) <<< UInt64.ofNat shift)))
      bin rd .or width (.place rd) (.imm value)

/-- The bits above the field of a bitfield move: copies of the top bit of the field, the old ones,
or none. -/
def bitfieldTop (width : Width) (op : BitfieldOp) (imms : Nat) (src : Operand) (rd : Place) :
    EmitM (Option Local) :=
  match op with
  | .sbfm => do
    let top ← alloc .i64
    bin top .shl width src (const (width.bits - 1 - imms))
    bin top .shrS width (.place top) (const (width.bits - 1))
    return some top
  | .bfm => do return some (← copy (.place rd))
  | .ubfm => return none

/-- Rotate a register, keep the bits of the field, and fill in the bits around it. -/
def bitfield (width : Width) (op : BitfieldOp) (immr imms : Nat) (wmask tmask : UInt64)
    (rn rd : Nat) : EmitM Unit :=
  match dest rd with
  | none => pure ()
  | some rd => do
    let src := gpr rn
    let bottom ← alloc .i64
    bin bottom .rotR width src (const immr)
    bin bottom .and width (.place bottom) (.imm wmask)
    if op = .bfm then
      let kept ← alloc .i64
      bin kept .and width (.place rd) (.imm (~~~wmask))
      bin bottom .or width (.place bottom) (.place kept)
      release kept
    let result ← alloc .i64
    bin result .and width (.place bottom) (.imm tmask)
    match ← bitfieldTop width op imms src rd with
    | some top =>
      bin top .and width (.place top) (.imm (~~~tmask))
      bin result .or width (.place result) (.place top)
      release top
    | none => pure ()
    move (some rd) (.place result) width
    release result
    release bottom

/-- Join the high bits of one register with the low bits of another. -/
def extract (width : Width) (lsb rm rn rd : Nat) : EmitM Unit := do
  if lsb = 0 then move (dest rd) (gpr rm) width
  else
    let low ← alloc .i64
    let high ← alloc .i64
    bin low .shrU width (gpr rm) (const lsb)
    bin high .shl width (gpr rn) (const (width.bits - lsb))
    bin low .or width (.place low) (.place high)
    move (dest rd) (.place low) width
    release high
    release low

/-! ### Operations on registers -/

/-- The complement of a value in a new local if asked for, else the value. -/
def complementIf (inverted : Bool) (width : Width) (y : Operand) :
    EmitM (Operand × List Local) := do
  if inverted then
    let l ← complement width y
    return (.place l, [l])
  else return (y, [])

/-- Combine a register with a shifted one, which may be inverted. -/
def logicalReg (width : Width) (op : LogicOp) (inverted : Bool) (shift amount rm rn rd : Nat) :
    EmitM Unit := do
  let (y, held₁) ← shifted width rm shift amount
  let (y, held₂) ← complementIf inverted width y
  let result ← alloc .i64
  bin result (logicBinOp op) width (gpr rn) y
  if op = .ands then setLogicalFlags width (.place result)
  move (dest rd) (.place result) width
  releaseAll (held₁ ++ held₂ ++ [result])

/-- Add or subtract, through the addition that sets the flags if they are to be set. -/
def addSub (width : Width) (sub setFlags : Bool) (x y : Operand) (rd : Option Place) :
    EmitM Unit := do
  if setFlags then
    let (y, held) ← complementIf sub width y
    let result ← addCarryFlags width x y (const sub.toNat)
    move rd (.place result) width
    releaseAll (held ++ [result])
  else
    match rd with
    | some rd => bin rd (if sub then .sub else .add) width x y
    | none => pure ()

/-- Add or subtract a shifted register. -/
def addSubShifted (width : Width) (sub setFlags : Bool) (shift amount rm rn rd : Nat) :
    EmitM Unit := do
  let (y, held) ← shifted width rm shift amount
  addSub width sub setFlags (gpr rn) y (dest rd)
  releaseAll held

/-- Add or subtract an extended register. Unless the flags are set, register 31 is the
stack pointer. -/
def addSubExtended (width : Width) (sub setFlags : Bool) (option amount rm rn rd : Nat) :
    EmitM Unit := do
  let y ← extended (gpr rm) option amount
  addSub width sub setFlags (gprOrSp rn) (.place y)
    (if setFlags then dest rd else some (placeOrSp rd))
  release y

/-- Add a register, or its complement, and the carry. -/
def addSubCarry (width : Width) (sub setFlags : Bool) (rm rn rd : Nat) : EmitM Unit := do
  let (y, held) ← complementIf sub width (gpr rm)
  let carry : Operand := .place (.flag .c)
  let result ← if setFlags then addCarryFlags width (gpr rn) y carry
    else addCarry width (gpr rn) y carry
  move (dest rd) (.place result) width
  releaseAll (held ++ [result])

/-- Compare if a condition holds, else set the flags to a number. The condition is about the flags
before the comparison. -/
def condCompare (width : Width) (sub : Bool) (second : CompareOperand) (cond : Cpu.Cond)
    (nzcv rn : Nat) : EmitM Unit := do
  let y := match second with
    | .imm n => const n
    | .reg n => gpr n
  let holds ← condHolds cond
  let (y, held) ← complementIf sub width y
  let result ← addCarryFlags width (gpr rn) y (const sub.toNat)
  [(Cpu.Flag.n, 3), (.z, 2), (.c, 1), (.v, 0)].forM fun (flag, bit) =>
    emit (.select (.flag flag) (.place holds) (.place (.flag flag))
      (const (nzcv.testBit bit).toNat))
  releaseAll (held ++ [result, holds])

/-- Choose a register if a condition holds, and a variant of another one if not. -/
def condSelect (width : Width) (invert increment : Bool) (cond : Cpu.Cond) (rm rn rd : Nat) :
    EmitM Unit :=
  match dest rd with
  | none => pure ()
  | some rd => do
    let holds ← condHolds cond
    let otherwise ← alloc .i64
    match invert, increment with
    | false, false => move (some otherwise) (gpr rm) .w64
    | false, true => bin otherwise .add width (gpr rm) (.imm 1)
    | true, false => bin otherwise .xor width (gpr rm) (.imm 0xffffffffffffffff)
    | true, true => bin otherwise .sub width (.imm 0) (gpr rm)
    emit (.select otherwise (.place holds) (gpr rn) (.place otherwise))
    move (some rd) (.place otherwise) width
    release otherwise
    release holds

/-- The operator of an operation on two registers. -/
def twoSourceBinOp : TwoSourceOp → BinOp
  | .udiv => .divU
  | .sdiv => .divS
  | .lsl => .shl
  | .lsr => .shrU
  | .asr => .shrS
  | .ror => .rotR

/-- Divide, or shift by a register. -/
def twoSource (width : Width) (op : TwoSourceOp) (rm rn rd : Nat) : EmitM Unit :=
  match dest rd with
  | none => pure ()
  | some rd => bin rd (twoSourceBinOp op) width (gpr rn) (gpr rm)

/-- Multiply, and add the product to a register or subtract it. -/
def threeSource (width : Width) (product : Product) (sub : Bool) (rm ra rn rd : Nat) :
    EmitM Unit := do
  let out ← alloc .i64
  match product with
  | .plain => bin out .mul width (gpr rn) (gpr rm)
  | .long signed =>
    let rhs ← alloc .i64
    emit (.extend 32 signed out (gpr rn))
    emit (.extend 32 signed rhs (gpr rm))
    bin out .mul .w64 (.place out) (.place rhs)
    release rhs
  match dest rd with
  | some rd => bin rd (if sub then .sub else .add) width (gpr ra) (.place out)
  | none => pure ()
  release out

/-- Compile an instruction. -/
def lower : Instr → EmitM Unit
  | .branchCond _ cond offset => branchCond cond offset
  | .compareBranch width nonzero rt offset => compareBranch width nonzero rt offset
  | .testBranch nonzero bit rt offset => testBranch nonzero bit rt offset
  | .branch link offset => branch link offset
  | .branchReg link rn => if link then callReg rn else jumpReg rn
  | .ret rn => returnTo rn
  | .exceptionReturn => exceptionReturn
  | .exception kind _ => unsupported kind.name
  | .hint _ | .barrier .. | .sys .. => pure ()
  | .writePstate field imm => writePstate field imm
  | .writeSysReg selector rt => writeSysReg selector rt
  | .readSysReg selector rt => readSysReg selector rt
  | .literal transfer size rt offset => literal transfer size rt offset
  | .access transfer size _ mode offset rn rt =>
    addressed rn offset mode (transferAt transfer size rt)
  | .accessIndexed transfer size option scaled rm rn rt =>
    accessIndexed transfer size option scaled rm rn rt
  | .pair isLoad _ size signed mode offset rt2 rn rt =>
    addressed rn offset mode (pairAt isLoad size signed rt2 rt)
  | .address page offset rd => address page offset rd
  | .addSubImm width sub setFlags isShifted imm rn rd =>
    addSubImm width sub setFlags isShifted imm rn rd
  | .logicalImm width op imm rn rd => logicalImm width op imm.value rn rd
  | .moveWide width op shift imm rd => moveWide width op shift imm rd
  | .bitfield width op immr imms wmask tmask rn rd =>
    bitfield width op immr imms wmask tmask rn rd
  | .extract width lsb rm rn rd => extract width lsb rm rn rd
  | .logicalReg width op inverted shift amount rm rn rd =>
    logicalReg width op inverted shift amount rm rn rd
  | .addSubShifted width sub setFlags shift amount rm rn rd =>
    addSubShifted width sub setFlags shift amount rm rn rd
  | .addSubExtended width sub setFlags option amount rm rn rd =>
    addSubExtended width sub setFlags option amount rm rn rd
  | .addSubCarry width sub setFlags rm rn rd => addSubCarry width sub setFlags rm rn rd
  | .condCompare width sub second cond nzcv rn => condCompare width sub second cond nzcv rn
  | .condSelect width invert increment cond rm rn rd =>
    condSelect width invert increment cond rm rn rd
  | .twoSource width op rm rn rd => twoSource width op rm rn rd
  | .threeSource width product sub rm ra rn rd => threeSource width product sub rm ra rn rd

/-- Compile the instruction that a word encodes. -/
def lowerWord (word : UInt32) : EmitM Unit :=
  match Instr.decode word with
  | .ok (form, fields) =>
    match form.read fields with
    | .ok i => lower i
    | .error _ => invalid
  | .error _ => invalid

end Dynarec.Compiler
