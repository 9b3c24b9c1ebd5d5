import Dynarec.Cpu.Image
import Dynarec.Error
import Dynarec.Ir.Eval
import Dynarec.Wasm.Module

/-!
# Modules of functions

The module of a compiled function. Guest memory lies at address zero of the linear memory and the
register image where the function's only parameter points. An operand is pushed as a 64-bit value;
writing a place keeps it within what the registers allow, as running the function directly does.
Guest accesses are checked against the size of guest memory where it is given, and every jump back
to the start of a loop calls the host first.
-/

namespace Dynarec.Wasm

open Ir (Ty Place Operand Op)
open Cpu (State)

/-- How modules are made: the limits of the imported memory in pages, the number of bytes of guest
memory if accesses are to be checked, and the name of the exported function. -/
structure Options where
  memoryMin : Nat
  memoryMax : Option Nat
  ramBytes : Option Nat
  exportName : String
  deriving DecidableEq, Repr

namespace Options

/-- One page of memory without a maximum, no check, exported as `run`. -/
def default : Options := ⟨1, none, none, "run"⟩

/-- The most pages that a memory can have. -/
def maxPages : Nat := 65536

/-- Check the limits of the memory. -/
def validate (o : Options) : Except Error Unit := do
  if maxPages < o.memoryMin then .error (.backend (.minPages o.memoryMin maxPages))
  match o.memoryMax with
  | some max =>
    if maxPages < max ∨ max < o.memoryMin then
      .error (.backend (.maxPages max o.memoryMin maxPages))
  | none => .ok ()

end Options

/-- A construct around the place being filled: its label, unless it is the arm of a conditional,
and whether it is a loop. -/
structure Enclosing where
  label : Option Nat
  isLoop : Bool
  deriving DecidableEq, Repr

/-- What the code of a function is made for: the types of its locals, the imported functions, and
the number of bytes of guest memory if accesses are checked. -/
structure Context where
  types : Array Ty
  imports : List Import
  ramBytes : Option Nat

namespace Context

variable (c : Context)

/-- The parameter, the address of the register image. -/
def imageLocal : Nat := 0

/-- The local that holds a scratch local of the function. -/
def valueLocal (l : Ir.Local) : Nat := 1 + l.id

/-- A 64-bit local for the value being written to a place. -/
def spareLocal : Nat := 1 + c.types.size

/-- A 64-bit local for a left operand or an address. -/
def lhsLocal : Nat := c.spareLocal + 1

/-- A 64-bit local for a right operand. -/
def rhsLocal : Nat := c.spareLocal + 2

/-- Number of 64-bit locals. -/
def longLocals : Nat := c.types.size + 3

/-- The 32-bit local that holds the dispatch variable. -/
def dispatchLocal : Nat := c.longLocals + 1

/-- The function index of an imported function. -/
def importIndex (i : Import) : Except Error Nat :=
  match c.imports.findIdx? (· == i) with
  | some index => .ok index
  | none => .error (.backend (.notImported i.name))

end Context

namespace Codegen

variable (c : Context)

/-- The operation of a binary operator. -/
def binOp : Ir.BinOp → BinOp
  | .add => .add
  | .sub => .sub
  | .mul => .mul
  | .and => .and
  | .or => .or
  | .xor => .xor
  | .shl => .shl
  | .shrU => .shrU
  | .shrS => .shrS
  | .rotR => .rotr
  | .divU => .divU
  | .divS => .divS

/-- The comparison of a comparison operator. -/
def relOp : Ir.CmpOp → RelOp
  | .eq => .eq
  | .ne => .ne
  | .ltS => .ltS
  | .ltU => .ltU
  | .leS => .leS
  | .leU => .leU
  | .gtS => .gtS
  | .gtU => .gtU
  | .geS => .geS
  | .geU => .geU

/-- Keep the bits of a mask. -/
def mask (value : UInt64) : List Instruction := [.i64Const value, .bin .w64 .and]

/-- Cut a 64-bit value to a width. -/
def cut : Width → List Instruction
  | .w32 => mask Width.w32.mask
  | .w64 => []

/-- Turn a 64-bit value into one of a width. -/
def narrow : Width → List Instruction
  | .w32 => [.wrap]
  | .w64 => []

/-- Turn a value of a width into a 64-bit one. -/
def widen : Width → List Instruction
  | .w32 => [.extendU]
  | .w64 => []

/-- Read a word of the register image. -/
def imageWord (offset : Nat) : List Instruction :=
  [.localGet Context.imageLocal, .load .double offset]

/-- The address of the word of the image whose number is on the stack. -/
def indexAddress : List Instruction :=
  [.wrap, .i32Const 3, .bin .w32 .shl, .localGet Context.imageLocal, .bin .w32 .add]

/-- The address of the selected stack pointer, from the first one. -/
def selectedSpAddress : List Instruction :=
  imageWord State.elOffset ++ imageWord State.spselOffset ++ .bin .w64 .mul :: indexAddress

/-- The address of an exception register of the current level, from the first one; level 0 uses
that of level 1. -/
def currentBankAddress : List Instruction :=
  imageWord State.elOffset ++ imageWord State.elOffset ++
    [.i64Const 0, .rel .w64 .ne, .extendU, .bin .w64 .sub] ++ indexAddress

/-- Where a place is in the register image, for one that is always at the same offset. -/
def fixedOffset : Place → Nat
  | .x n => State.xOffset n
  | .spEl el => State.spElBase + el % 4 * 8
  | .flag f => State.flagOffset f
  | .el => State.elOffset
  | .spsel => State.spselOffset
  | .daif => State.daifOffset
  | .elr (.level el) => State.elrBase + Cpu.bankIndex el * 8
  | .spsr (.level el) => State.spsrBase + Cpu.bankIndex el * 8
  | .sys slot => State.sysOffset slot
  | .sp | .elr .current | .spsr .current | .scratch _ => 0

/-- Push the value of a place. -/
def readPlace : Place → List Instruction
  | .scratch l => [.localGet (Context.valueLocal l)]
  | .sp => selectedSpAddress ++ [.load .double State.spElBase]
  | .elr .current => currentBankAddress ++ [.load .double State.elrBase]
  | .spsr .current => currentBankAddress ++ [.load .double State.spsrBase]
  | .x n => if 31 ≤ n then [.i64Const 0] else imageWord (State.xOffset n)
  | place => imageWord (fixedOffset place)

/-- Push the value of an operand. -/
def readOperand : Operand → List Instruction
  | .imm value => [.i64Const value]
  | .place place => readPlace place

/-- Keep a value within what a place allows. -/
def normalize : Place → List Instruction
  | .flag _ => [.i64Const 0, .rel .w64 .ne, .extendU]
  | .el => mask 3
  | .spsel => mask 1
  | .daif => mask Cpu.SysReg.daifMask
  | _ => []

/-- Pop a value and write it at an address, computed after it, and an offset from there. -/
def writeAt (address adjust : List Instruction) (offset : Nat) : List Instruction :=
  .localSet c.spareLocal :: address ++ .localGet c.spareLocal :: adjust ++ [.store .double offset]

/-- Pop a value and write it to a place. -/
def writePlace (place : Place) : List Instruction :=
  match place with
  | .scratch l =>
    (if c.types[l.id]? = some .i32 then cut .w32 else []) ++ [.localSet (Context.valueLocal l)]
  | .sp => writeAt c selectedSpAddress [] State.spElBase
  | .elr .current => writeAt c currentBankAddress [] State.elrBase
  | .spsr .current => writeAt c currentBankAddress [] State.spsrBase
  | .x n =>
    if 31 ≤ n then [.drop]
    else writeAt c [.localGet Context.imageLocal] [] (State.xOffset n)
  | place =>
    writeAt c [.localGet Context.imageLocal] (normalize place) (fixedOffset place)

/-- Push whether an operand is not zero. -/
def truthy (cond : Operand) : List Instruction :=
  readOperand cond ++ [.i64Const 0, .rel .w64 .ne]

/-- Push an operand cut to a width. -/
def readNarrow (operand : Operand) (width : Width) : List Instruction :=
  readOperand operand ++ narrow width

/-- Divide the two kept operands, as 64-bit values of a width. -/
def divideKept (op : BinOp) (width : Width) : List Instruction :=
  .localGet c.lhsLocal :: narrow width ++ .localGet c.rhsLocal :: narrow width ++
    .bin width op :: widen width

/-- Push a quotient. Division by zero gives zero, and signed division by minus one negates. -/
def divide (signed : Bool) (width : Width) (lhs rhs : Operand) : List Instruction :=
  let quotient :=
    if signed then
      [.localGet c.rhsLocal, .i64Const width.mask, .rel .w64 .eq,
        .ifElse true
          ([.i64Const 0, .localGet c.lhsLocal, .bin .w64 .sub] ++ cut width)
          (divideKept c .divS width)]
    else divideKept c .divU width
  readOperand lhs ++ cut width ++ .localSet c.lhsLocal :: readOperand rhs ++ cut width ++
    [.localSet c.rhsLocal, .localGet c.rhsLocal, .eqz64, .ifElse true [.i64Const 0] quotient]

/-- Push a guest address as an address of linear memory, stopping when an access there leaves guest
memory. -/
def guestAddress (addr : Operand) (size : AccessSize) : List Instruction :=
  let check := match c.ramBytes with
    | none => []
    | some ram =>
      if size.bytes ≤ ram then
        [.localGet c.lhsLocal, .i64Const (UInt64.ofNat (ram - size.bytes)), .rel .w64 .gtU,
          .ifThen [.unreachable]]
      else [.unreachable]
  readOperand addr ++ .localSet c.lhsLocal :: check ++ [.localGet c.lhsLocal, .wrap]

/-- Extend the low bits of the value on the stack. -/
def extend (bits : Nat) (signed : Bool) : List Instruction :=
  if 64 ≤ bits then []
  else if signed then
    let shift := UInt64.ofNat (64 - bits)
    [.i64Const shift, .bin .w64 .shl, .i64Const shift, .bin .w64 .shrS]
  else mask (Bits.ones bits)

/-- Push the value of a binary operator. -/
def binary (op : Ir.BinOp) (width : Width) (lhs rhs : Operand) : List Instruction :=
  match op with
  | .divU => divide c false width lhs rhs
  | .divS => divide c true width lhs rhs
  | op =>
    readNarrow lhs width ++ readNarrow rhs width ++ .bin width (binOp op) :: widen width

mutual

/-- The code of an operation. -/
def op : Op → Except Error (List Instruction)
  | .mov width dst src => .ok (readOperand src ++ cut width ++ writePlace c dst)
  | .bin op width dst lhs rhs => .ok (binary c op width lhs rhs ++ writePlace c dst)
  | .cmp op width dst lhs rhs =>
    .ok (readNarrow lhs width ++ readNarrow rhs width ++
      [.rel width (relOp op), .extendU] ++ writePlace c dst)
  | .select dst cond ifTrue ifFalse =>
    .ok (readOperand ifTrue ++ readOperand ifFalse ++ truthy cond ++ .select :: writePlace c dst)
  | .extend bits signed dst src => .ok (readOperand src ++ extend bits signed ++ writePlace c dst)
  | .load size dst addr => .ok (guestAddress c addr size ++ .load size 0 :: writePlace c dst)
  | .store size addr value =>
    .ok (guestAddress c addr size ++ readOperand value ++ [.store size 0])
  | .call dst slot => do
    let callee ← c.importIndex .callSlot
    return [.i32Const (UInt32.ofNat slot), .localGet Context.imageLocal, .call callee] ++
      writePlace c dst
  | .jump dst target => do
    let callee ← c.importIndex .jumpToPc
    return .localGet Context.imageLocal :: readOperand target ++ .call callee :: writePlace c dst
  | .branch cond ifTrue ifFalse => do
    let yes ← ops ifTrue
    match ifFalse with
    | [] => return truthy cond ++ [.ifThen yes]
    | _ :: _ => return truthy cond ++ [.ifElse false yes (← ops ifFalse)]
  | .ret value => .ok (readOperand value ++ [.ret])

/-- The code of operations in order. -/
def ops : List Op → Except Error (List Instruction)
  | [] => .ok []
  | o :: rest => do return (← op o) ++ (← ops rest)

end

/-- Push whether a test holds. -/
def test : Test Operand → List Instruction
  | .cond cond => truthy cond
  | .dispatchIs id => [.localGet c.dispatchLocal, .i32Const (UInt32.ofNat id), .rel .w32 .eq]

/-- Jump to a label from inside some constructs; a jump to the start of a loop calls the host
first. -/
def jump (frames : List Enclosing) (label : Nat) : Except Error (List Instruction) :=
  match frames.findIdx? (·.label == some label) with
  | none => .error (.backend (.strayBranch label))
  | some depth =>
    let isLoop := (frames[depth]?.map (·.isLoop)).getD false
    let tick := match c.imports.findIdx? (· == .tick) with
      | some index => if isLoop then [.localGet Context.imageLocal, .call index] else []
      | none => []
    .ok (tick ++ [.br depth])

/-- Whether a shape is the empty sequence. -/
def isEmptySeq {B C : Type} : Shape B C → Bool
  | .seq [] => true
  | _ => false

mutual

/-- The code of a shape inside some constructs. -/
def shape (frames : List Enclosing) : Shape (List Op) Operand → Except Error (List Instruction)
  | .seq items => shapes frames items
  | .body b => ops c b
  | .block label inner => do
    return [.block (← shape (⟨some label, false⟩ :: frames) inner)]
  | .loop label inner => do
    return [.loop (← shape (⟨some label, true⟩ :: frames) inner)]
  | .cond t ifTrue ifFalse => do
    let yes ← shape (⟨none, false⟩ :: frames) ifTrue
    if isEmptySeq ifFalse then return test c t ++ [.ifThen yes]
    else return test c t ++ [.ifElse false yes (← shape (⟨none, false⟩ :: frames) ifFalse)]
  | .br label => jump c frames label
  | .setDispatch id =>
    .ok [.i32Const (UInt32.ofNat id), .localSet c.dispatchLocal]

/-- The code of shapes in order. -/
def shapes (frames : List Enclosing) :
    List (Shape (List Op) Operand) → Except Error (List Instruction)
  | [] => .ok []
  | s :: rest => do return (← shape frames s) ++ (← shapes frames rest)

end

end Codegen

end Dynarec.Wasm

namespace Dynarec.Ir

mutual

/-- Whether an operation, or one inside it, satisfies a predicate. -/
def Op.any (p : Op → Bool) : Op → Bool
  | .branch cond ifTrue ifFalse =>
    p (.branch cond ifTrue ifFalse) || Op.anyOf p ifTrue || Op.anyOf p ifFalse
  | op => p op

/-- Whether one of some operations, or one inside them, satisfies a predicate. -/
def Op.anyOf (p : Op → Bool) : List Op → Bool
  | [] => false
  | op :: rest => op.any p || Op.anyOf p rest

end

/-- Whether a function has an operation that satisfies a predicate. -/
def Function.any (f : Function) (p : Op → Bool) : Bool := f.body.bodies.any (Op.anyOf p)

/-- Whether an operation calls through the table. -/
def Op.isCall : Op → Bool
  | .call .. => true
  | _ => false

/-- Whether an operation jumps to a guest address. -/
def Op.isJump : Op → Bool
  | .jump .. => true
  | _ => false

end Dynarec.Ir

namespace Dynarec.Wasm

/-- The functions that the module of a function imports: those that its operations and loops
call. -/
def importsOf (f : Ir.Function) : List Import :=
  (if f.any Ir.Op.isCall then [.callSlot] else []) ++
    (if f.any Ir.Op.isJump then [.jumpToPc] else []) ++ if f.body.hasLoop then [.tick] else []

/-- The module of a function. -/
def moduleOf (f : Ir.Function) (o : Options) : Except Error Module := do
  o.validate
  let c : Context := ⟨f.locals, importsOf f, o.ramBytes⟩
  let body ← Codegen.shape c [] f.body
  return ⟨o.memoryMin, o.memoryMax, c.imports, o.exportName, c.longLocals, body ++ [.unreachable]⟩

/-- The bytes of the module of a function. -/
def emitFunction (f : Ir.Function) (o : Options) : Except Error ByteArray :=
  (moduleOf f o).map Module.encode

end Dynarec.Wasm
