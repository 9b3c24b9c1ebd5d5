import Dynarec.Cpu.SysReg
import Dynarec.Encoding.Table
import Dynarec.Instr.Basic

/-!
# Instruction forms

The encodings of the guest machine: the pattern of every form, in order of priority, with the way
its fields are read as an instruction. A form may have unallocated encodings, which no instruction
has. Forms that raise an exception are only listed, not compiled.
-/

namespace Dynarec.Instr

open Encoding (Fields)

/-- Why the fields of a form denote no instruction: a field that its pattern does not declare is
asked for, or the encoding is not allocated. -/
inductive FieldError where
  | undeclared (name : String)
  | unallocated
  deriving DecidableEq, Repr

/-- An encoding with the reading of its fields. -/
structure Form where
  mnemonic : String
  pattern : String
  constraints : List (String × Encoding.Constraint)
  compiles : Bool
  read : Fields → Except FieldError Instr

namespace Form

/-- The value of a field. -/
def field (f : Fields) (name : String) : Except FieldError Nat :=
  match f.get? name with
  | some v => .ok v
  | none => .error (.undeclared name)

/-- Whether a field is one. -/
def bit (f : Fields) (name : String) : Except FieldError Bool :=
  (field f name).map (· == 1)

/-- The register width that the size bit selects. -/
def width (f : Fields) : Except FieldError Width := (field f "sf").map Width.ofSizeBit

/-- The condition of the condition field. -/
def cond (f : Fields) : Except FieldError Cpu.Cond := (field f "cond").map Cpu.Cond.ofBits

/-- A branch displacement in a field of `bits` bits. -/
def displacement (f : Fields) (name : String) (bits : Nat) : Except FieldError UInt64 :=
  (field f name).map (Operand.branchOffset · bits)

/-- Refuse encodings that are not allocated. -/
def require (allocated : Bool) : Except FieldError Unit :=
  if allocated then .ok () else .error .unallocated

/-- A value that only allocated encodings have. -/
def allocated {α : Type} : Option α → Except FieldError α
  | some a => .ok a
  | none => .error .unallocated

/-! ### Branches and exceptions -/

/-- A branch on a condition, plain or with the hint that it goes the same way each time. -/
def branchCond (consistent : Bool) (f : Fields) : Except FieldError Instr := do
  return .branchCond consistent (← cond f) (← displacement f "imm19" 19)

/-- A branch on whether a register is zero. -/
def compareBranch (f : Fields) : Except FieldError Instr := do
  return .compareBranch (← width f) (← bit f "op") (← field f "Rt") (← displacement f "imm19" 19)

/-- A branch on one bit of a register. The number of the bit is in two fields. -/
def testBranch (f : Fields) : Except FieldError Instr := do
  return .testBranch (← bit f "op") ((← field f "b5") * 32 + (← field f "b40")) (← field f "Rt")
    (← displacement f "imm14" 14)

/-- A branch to a displacement, which may leave a link. -/
def branch (f : Fields) : Except FieldError Instr := do
  return .branch (← bit f "op") (← displacement f "imm26" 26)

/-- A branch to the address in a register, with or without a link. -/
def branchReg (link : Bool) (f : Fields) : Except FieldError Instr := do
  return .branchReg link (← field f "Rn")

/-- A return to the address in a register. -/
def ret (f : Fields) : Except FieldError Instr := do
  return .ret (← field f "Rn")

/-- An instruction that raises an exception. -/
def exception (kind : ExceptionKind) (f : Fields) : Except FieldError Instr := do
  return .exception kind (← field f "imm16")

/-! ### Hints, barriers and system registers -/

/-- A hint. Its number is in two fields. -/
def hint (f : Fields) : Except FieldError Instr := do
  return .hint ((← field f "CRm") * 8 + (← field f "op2"))

/-- A barrier with its option. -/
def barrier (kind : Barrier) (f : Fields) : Except FieldError Instr := do
  return .barrier kind (← field f "CRm")

/-- An immediate written to a processor field. -/
def writePstate (target : PstateField) (f : Fields) : Except FieldError Instr := do
  return .writePstate target (← field f "CRm")

/-- A system operation. -/
def sys (f : Fields) : Except FieldError Instr := do
  return .sys (← field f "op1") (← field f "CRn") (← field f "CRm") (← field f "op2")
    (← field f "Rt")

/-- The number that selects a system register. The first part of it is two or three. -/
def selector (f : Fields) : Except FieldError Nat := do
  return Cpu.SysReg.pack (2 + (← field f "o0")) (← field f "op1") (← field f "CRn")
    (← field f "CRm") (← field f "op2")

/-- A system register written from a general one. -/
def writeSysReg (f : Fields) : Except FieldError Instr := do
  return .writeSysReg (← selector f) (← field f "Rt")

/-- A system register read into a general one. -/
def readSysReg (f : Fields) : Except FieldError Instr := do
  return .readSysReg (← selector f) (← field f "Rt")

/-! ### Loads and stores -/

/-- What a memory instruction with the given size and operation fields does, if it is allocated. -/
def transfer? (size opc : Nat) : Option Transfer :=
  match opc, size with
  | 0, _ => some .store
  | 1, 3 => some (.load .w64 false)
  | 1, _ => some (.load .w32 false)
  | 2, 3 => some .prefetch
  | 2, _ => some (.load .w64 true)
  | 3, 0 => some (.load .w32 true)
  | 3, 1 => some (.load .w32 true)
  | _, _ => none

/-- A load from a displacement. The operation field decides what is loaded. -/
def literal (f : Fields) : Except FieldError Instr := do
  let (transfer, size) : Transfer × AccessSize := match ← field f "opc" with
    | 0 => (.load .w32 false, .word)
    | 1 => (.load .w64 false, .double)
    | 2 => (.load .w64 true, .word)
    | _ => (.prefetch, .double)
  return .literal transfer size (← field f "Rt") (← displacement f "imm19" 19)

/-- A load or store at a base and an offset counted in elements. -/
def accessUnsigned (f : Fields) : Except FieldError Instr := do
  let size ← field f "size"
  let transfer ← allocated (transfer? size (← field f "opc"))
  let offset := UInt64.ofNat ((← field f "imm12") <<< size)
  return .access transfer (.ofLog2 size) false .offset offset (← field f "Rn") (← field f "Rt")

/-- A load or store at a base and a signed offset in bytes, in one of the three modes. Only the mode
that keeps the base has prefetches. -/
def accessSigned (mode : AddrMode) (f : Fields) : Except FieldError Instr := do
  let size ← field f "size"
  let transfer ← allocated (transfer? size (← field f "opc"))
  require (transfer != .prefetch || mode == .offset)
  let offset := Bits.signExtend (UInt64.ofNat (← field f "imm9")) 9
  return .access transfer (.ofLog2 size) (mode == .offset) mode offset (← field f "Rn")
    (← field f "Rt")

/-- A load or store at a base and an offset in a register. -/
def accessIndexed (f : Fields) : Except FieldError Instr := do
  let size ← field f "size"
  let transfer ← allocated (transfer? size (← field f "opc"))
  return .accessIndexed transfer (.ofLog2 size) (← field f "option") (← bit f "S") (← field f "Rm")
    (← field f "Rn") (← field f "Rt")

/-- The element size of a pair and whether its elements are extended with their sign, if it is
allocated. -/
def pairLayout? (opc index : Nat) (load : Bool) : Option (AccessSize × Bool) :=
  match opc with
  | 0 => some (.word, false)
  | 2 => some (.double, false)
  | 1 => if load && index != 0 then some (.word, true) else none
  | _ => none

/-- A load or store of two registers. The offset is counted in elements. -/
def pair (f : Fields) : Except FieldError Instr := do
  let index ← field f "idx"
  let load ← bit f "L"
  let (size, isSigned) ← allocated (pairLayout? (← field f "opc") index load)
  let mode : AddrMode := match index with
    | 1 => .postIndex
    | 3 => .preIndex
    | _ => .offset
  let offset :=
    Bits.signExtend (UInt64.ofNat (← field f "imm7")) 7 <<< UInt64.ofNat size.log2
  return .pair load (index == 0) size isSigned mode offset (← field f "Rt2") (← field f "Rn")
    (← field f "Rt")

/-! ### Operations on immediates -/

/-- An address at a displacement, in bytes or in pages. -/
def address (f : Fields) : Except FieldError Instr := do
  let page ← bit f "op"
  let offset :=
    Bits.signExtend (UInt64.ofNat ((← field f "immhi") * 4 + (← field f "immlo"))) 21
  return .address page (if page then offset <<< 12 else offset) (← field f "Rd")

/-- An addition or subtraction of an immediate. -/
def addSubImm (f : Fields) : Except FieldError Instr := do
  return .addSubImm (← width f) (← bit f "op") (← bit f "S") (← bit f "sh") (← field f "imm12")
    (← field f "Rn") (← field f "Rd")

/-- The bitwise operation of an operation field. -/
def logicOp (opc : Nat) : LogicOp :=
  match opc with
  | 0 => .and
  | 1 => .orr
  | 2 => .eor
  | _ => .ands

/-- A bitwise operation with a logical immediate; a 32-bit form has no 64-bit patterns. -/
def logicalImm (f : Fields) : Except FieldError Instr := do
  let width ← width f
  let n ← field f "N"
  let immr ← field f "immr"
  let imms ← field f "imms"
  require (width == .w64 || n != 1)
  let value ← allocated (Bits.decodeLogical n imms immr width)
  return .logicalImm width (logicOp (← field f "opc")) ⟨n, immr, imms, value⟩ (← field f "Rn")
    (← field f "Rd")

/-- A move of a 16-bit immediate to one of the places that the register has. -/
def moveWide (f : Fields) : Except FieldError Instr := do
  let width ← width f
  let hw ← field f "hw"
  require (width == .w64 || hw < 2)
  let op : MoveWideOp := match ← field f "opc" with
    | 0 => .movn
    | 2 => .movz
    | _ => .movk
  return .moveWide width op (hw * 16) (← field f "imm16") (← field f "Rd")

/-- A bitfield move. The pattern is as wide as the register. -/
def bitfield (f : Fields) : Except FieldError Instr := do
  let width ← width f
  let n ← field f "N"
  let immr ← field f "immr"
  let imms ← field f "imms"
  require (n == (← field f "sf"))
  let (wmask, tmask) ← allocated (Bits.decodeMasks n imms immr false width)
  let op : BitfieldOp := match ← field f "opc" with
    | 0 => .sbfm
    | 1 => .bfm
    | _ => .ubfm
  return .bitfield width op immr imms wmask tmask (← field f "Rn") (← field f "Rd")

/-- A register extracted from a pair of them, from a bit on that lies in the lower one. -/
def extract (f : Fields) : Except FieldError Instr := do
  let width ← width f
  let lsb ← field f "imms"
  require ((← field f "N") == (← field f "sf") && (width == .w64 || lsb < 32))
  return .extract width lsb (← field f "Rm") (← field f "Rn") (← field f "Rd")

/-! ### Operations on registers -/

/-- The shift amount field; a 32-bit form has no amount of 32 or more. -/
def shiftAmount (f : Fields) (width : Width) : Except FieldError Nat := do
  let amount ← field f "imm6"
  require (width == .w64 || amount < 32)
  return amount

/-- A bitwise operation with a shifted register. -/
def logicalReg (f : Fields) : Except FieldError Instr := do
  let width ← width f
  let amount ← shiftAmount f width
  return .logicalReg width (logicOp (← field f "opc")) (← bit f "N") (← field f "shift") amount
    (← field f "Rm") (← field f "Rn") (← field f "Rd")

/-- An addition or subtraction of a shifted register. -/
def addSubShifted (f : Fields) : Except FieldError Instr := do
  let width ← width f
  let amount ← shiftAmount f width
  return .addSubShifted width (← bit f "op") (← bit f "S") (← field f "shift") amount
    (← field f "Rm") (← field f "Rn") (← field f "Rd")

/-- An addition or subtraction of an extended register, shifted by at most four. -/
def addSubExtended (f : Fields) : Except FieldError Instr := do
  let amount ← field f "imm3"
  require (amount ≤ 4)
  return .addSubExtended (← width f) (← bit f "op") (← bit f "S") (← field f "option") amount
    (← field f "Rm") (← field f "Rn") (← field f "Rd")

/-- An addition or subtraction with carry. -/
def addSubCarry (f : Fields) : Except FieldError Instr := do
  return .addSubCarry (← width f) (← bit f "op") (← bit f "S") (← field f "Rm") (← field f "Rn")
    (← field f "Rd")

/-- A conditional comparison with a register. -/
def condCompareReg (f : Fields) : Except FieldError Instr := do
  return .condCompare (← width f) (← bit f "op") (.reg (← field f "Rm")) (← cond f)
    (← field f "nzcv") (← field f "Rn")

/-- A conditional comparison with an immediate. -/
def condCompareImm (f : Fields) : Except FieldError Instr := do
  return .condCompare (← width f) (← bit f "op") (.imm (← field f "imm5")) (← cond f)
    (← field f "nzcv") (← field f "Rn")

/-- A choice between a register and a variant of another one. -/
def condSelect (f : Fields) : Except FieldError Instr := do
  return .condSelect (← width f) (← bit f "op") (← bit f "o2") (← cond f) (← field f "Rm")
    (← field f "Rn") (← field f "Rd")

/-- A division or a shift by a register. -/
def twoSource (f : Fields) : Except FieldError Instr := do
  let op : TwoSourceOp := match ← field f "opcode" with
    | 2 => .udiv
    | 3 => .sdiv
    | 8 => .lsl
    | 9 => .lsr
    | 10 => .asr
    | _ => .ror
  return .twoSource (← width f) op (← field f "Rm") (← field f "Rn") (← field f "Rd")

/-- A product added to or subtracted from a register; products of low words are 64-bit. -/
def threeSource (f : Fields) : Except FieldError Instr := do
  let width ← width f
  let product : Product := match ← field f "op31" with
    | 0 => .plain
    | 1 => .long true
    | _ => .long false
  require (width == .w64 || product == .plain)
  return .threeSource width product (← bit f "o0") (← field f "Rm") (← field f "Ra")
    (← field f "Rn") (← field f "Rd")

/-- A form that is compiled. -/
def compiled (mnemonic pattern : String) (read : Fields → Except FieldError Instr)
    (constraints : List (String × Encoding.Constraint) := []) : Form :=
  ⟨mnemonic, pattern, constraints, true, read⟩

/-- A form that is only listed. -/
def listed (mnemonic pattern : String) (read : Fields → Except FieldError Instr) : Form :=
  ⟨mnemonic, pattern, [], false, read⟩

/-- The forms of branches and exceptions. -/
def branches : List Form :=
  [ compiled "b.cond" "0101010 0 imm19:19 0 cond:4" (branchCond false),
    compiled "bc.cond" "0101010 0 imm19:19 1 cond:4" (branchCond true),
    compiled "cbz" "sf:1 011010 op:1 imm19:19 Rt:5" compareBranch,
    compiled "tbz" "b5:1 011011 op:1 b40:5 imm14:14 Rt:5" testBranch,
    compiled "b" "op:1 00101 imm26:26" branch,
    compiled "br" "1101011 0000 11111 000000 Rn:5 00000" (branchReg false),
    compiled "blr" "1101011 0001 11111 000000 Rn:5 00000" (branchReg true),
    compiled "ret" "1101011 0010 11111 000000 Rn:5 00000" ret,
    compiled "eret" "1101011 0100 11111 000000 11111 00000" (fun _ => .ok .exceptionReturn),
    listed "svc" "11010100 000 imm16:16 000 01" (exception .svc),
    listed "hvc" "11010100 000 imm16:16 000 10" (exception .hvc),
    listed "smc" "11010100 000 imm16:16 000 11" (exception .smc),
    listed "brk" "11010100 001 imm16:16 000 00" (exception .brk),
    listed "hlt" "11010100 010 imm16:16 000 00" (exception .hlt) ]

/-- The forms of hints, barriers and system registers. -/
def system : List Form :=
  [ compiled "hint" "1101010100 0 00 011 0010 CRm:4 op2:3 11111" hint,
    compiled "clrex" "1101010100 0 00 011 0011 CRm:4 010 11111" (barrier .clrex),
    compiled "dsb" "1101010100 0 00 011 0011 CRm:4 100 11111" (barrier .dsb),
    compiled "dmb" "1101010100 0 00 011 0011 CRm:4 101 11111" (barrier .dmb),
    compiled "isb" "1101010100 0 00 011 0011 CRm:4 110 11111" (barrier .isb),
    compiled "msr spsel" "1101010100 0 00 000 0100 CRm:4 101 11111" (writePstate .spsel),
    compiled "msr daifset" "1101010100 0 00 011 0100 CRm:4 110 11111" (writePstate .daifSet),
    compiled "msr daifclr" "1101010100 0 00 011 0100 CRm:4 111 11111" (writePstate .daifClr),
    compiled "sys" "1101010100 0 01 op1:3 CRn:4 CRm:4 op2:3 Rt:5" sys,
    compiled "msr" "1101010100 0 1 o0:1 op1:3 CRn:4 CRm:4 op2:3 Rt:5" writeSysReg,
    compiled "mrs" "1101010100 1 1 o0:1 op1:3 CRn:4 CRm:4 op2:3 Rt:5" readSysReg ]

/-- The forms of loads and stores. -/
def loadsAndStores : List Form :=
  [ compiled "ldr literal" "opc:2 011 0 00 imm19:19 Rt:5" literal,
    compiled "ldr/str unsigned offset" "size:2 111 0 01 opc:2 imm12:12 Rn:5 Rt:5" accessUnsigned,
    compiled "ldur/stur" "size:2 111 0 00 opc:2 0 imm9:9 00 Rn:5 Rt:5" (accessSigned .offset),
    compiled "ldr/str post-index" "size:2 111 0 00 opc:2 0 imm9:9 01 Rn:5 Rt:5"
      (accessSigned .postIndex),
    compiled "ldr/str pre-index" "size:2 111 0 00 opc:2 0 imm9:9 11 Rn:5 Rt:5"
      (accessSigned .preIndex),
    compiled "ldr/str register offset" "size:2 111 0 00 opc:2 1 Rm:5 option:3 S:1 10 Rn:5 Rt:5"
      accessIndexed [("option", .only [2, 3, 6, 7])],
    compiled "ldp/stp" "opc:2 101 0 0 idx:2 L:1 imm7:7 Rt2:5 Rn:5 Rt:5" pair
      [("opc", .exclude [3])] ]

/-- The forms of operations on immediates. -/
def immediates : List Form :=
  [ compiled "adr" "op:1 immlo:2 10000 immhi:19 Rd:5" address,
    compiled "add/sub immediate" "sf:1 op:1 S:1 100010 sh:1 imm12:12 Rn:5 Rd:5" addSubImm,
    compiled "logical immediate" "sf:1 opc:2 100100 N:1 immr:6 imms:6 Rn:5 Rd:5" logicalImm,
    compiled "move wide" "sf:1 opc:2 100101 hw:2 imm16:16 Rd:5" moveWide [("opc", .exclude [1])],
    compiled "bitfield" "sf:1 opc:2 100110 N:1 immr:6 imms:6 Rn:5 Rd:5" bitfield
      [("opc", .exclude [3])],
    compiled "extr" "sf:1 00 100111 N:1 0 Rm:5 imms:6 Rn:5 Rd:5" extract ]

/-- The forms of operations on registers. -/
def registers : List Form :=
  [ compiled "logical shifted register" "sf:1 opc:2 01010 shift:2 N:1 Rm:5 imm6:6 Rn:5 Rd:5"
      logicalReg,
    compiled "add/sub shifted register" "sf:1 op:1 S:1 01011 shift:2 0 Rm:5 imm6:6 Rn:5 Rd:5"
      addSubShifted [("shift", .exclude [3])],
    compiled "add/sub extended register" "sf:1 op:1 S:1 01011 00 1 Rm:5 option:3 imm3:3 Rn:5 Rd:5"
      addSubExtended,
    compiled "adc/sbc" "sf:1 op:1 S:1 11010000 Rm:5 000000 Rn:5 Rd:5" addSubCarry,
    compiled "ccmp register" "sf:1 op:1 1 11010010 Rm:5 cond:4 0 0 Rn:5 0 nzcv:4" condCompareReg,
    compiled "ccmp immediate" "sf:1 op:1 1 11010010 imm5:5 cond:4 1 0 Rn:5 0 nzcv:4"
      condCompareImm,
    compiled "csel" "sf:1 op:1 0 11010100 Rm:5 cond:4 0 o2:1 Rn:5 Rd:5" condSelect,
    compiled "data processing 2-source" "sf:1 0 0 11010110 Rm:5 opcode:6 Rn:5 Rd:5" twoSource
      [("opcode", .only [2, 3, 8, 9, 10, 11])],
    compiled "data processing 3-source" "sf:1 00 11011 op31:3 Rm:5 o0:1 Ra:5 Rn:5 Rd:5"
      threeSource [("op31", .only [0, 1, 5])] ]

/-- Every form, in order of priority. -/
def all : List Form := branches ++ system ++ loadsAndStores ++ immediates ++ registers

/-- The constrained pattern of a form. -/
def toPattern (f : Form) : Except Encoding.PatternError Encoding.Pattern := do
  f.constraints.foldlM (fun p (name, c) => p.constrain name c) (← Encoding.Pattern.parse f.pattern)

/-- The decode table of every form whose pattern can be read. -/
def table : Encoding.Table Form :=
  .ofList (all.filterMap fun f => f.toPattern.toOption.map (·, f))

end Form

/-- The form of a word and its field values. -/
def decode (word : UInt32) : Except Encoding.DecodeError (Form × Fields) :=
  Form.table.decode word

end Dynarec.Instr
