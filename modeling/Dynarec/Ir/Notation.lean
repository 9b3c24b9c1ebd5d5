import Dynarec.Ir.Basic
import Dynarec.Text.Number

/-!
# Names of places and operators

Places, operands and operators are written as single words: a register by its name, a numbered
place as a stem and its number, a constant as `#` and its hexadecimal text. This module writes and
reads these words.
-/

namespace Dynarec

/-- The name of a flag. -/
def Cpu.Flag.name : Cpu.Flag → String
  | .n => "n"
  | .z => "z"
  | .c => "c"
  | .v => "v"

/-- The flag of a name. -/
def Cpu.Flag.ofName? (name : String) : Option Cpu.Flag :=
  [.n, .z, .c, .v].find? (·.name == name)

namespace Ir

/-- The binary operators. -/
def BinOp.all : List BinOp :=
  [.add, .sub, .mul, .and, .or, .xor, .shl, .shrU, .shrS, .rotR, .divU, .divS]

/-- The name of a binary operator. -/
def BinOp.name : BinOp → String
  | .add => "add"
  | .sub => "sub"
  | .mul => "mul"
  | .and => "and"
  | .or => "or"
  | .xor => "xor"
  | .shl => "shl"
  | .shrU => "shru"
  | .shrS => "shrs"
  | .rotR => "rotr"
  | .divU => "divu"
  | .divS => "divs"

/-- The binary operator of a name. -/
def BinOp.ofName? (name : String) : Option BinOp := all.find? (·.name == name)

/-- The comparisons. -/
def CmpOp.all : List CmpOp := [.eq, .ne, .ltS, .ltU, .leS, .leU, .gtS, .gtU, .geS, .geU]

/-- The name of a comparison. -/
def CmpOp.name : CmpOp → String
  | .eq => "eq"
  | .ne => "ne"
  | .ltS => "lts"
  | .ltU => "ltu"
  | .leS => "les"
  | .leU => "leu"
  | .gtS => "gts"
  | .gtU => "gtu"
  | .geS => "ges"
  | .geU => "geu"

/-- The comparison of a name. -/
def CmpOp.ofName? (name : String) : Option CmpOp := all.find? (·.name == name)

/-- A stem with the level of a bank, or with the mark of the current one. -/
def Bank.suffixed (stem : String) : Bank → String
  | .current => stem ++ "_cur"
  | .level el => stem ++ toString el

/-- The word for a place. -/
def Place.text : Place → String
  | .x n => "x" ++ toString n
  | .sp => "sp"
  | .spEl n => "sp_el" ++ toString n
  | .flag f => f.name
  | .el => "el"
  | .spsel => "spsel"
  | .daif => "daif"
  | .elr bank => bank.suffixed "elr"
  | .spsr bank => bank.suffixed "spsr"
  | .sys slot => "sys" ++ toString slot.val
  | .scratch l => "l" ++ toString l.id

/-- The places that have no number. -/
def Place.unnumbered : List Place :=
  [.sp, .flag .n, .flag .z, .flag .c, .flag .v, .el, .spsel, .daif, .elr .current, .spsr .current]

/-- The place of a stem and a number. -/
def Place.numbered? (stem : List Char) (n : Nat) : Option Place :=
  if stem = ['x'] then some (.x n)
  else if stem = ['l'] then some (.scratch ⟨n⟩)
  else if stem = ['s', 'p', '_', 'e', 'l'] then some (.spEl n)
  else if stem = ['e', 'l', 'r'] then some (.elr (.level n))
  else if stem = ['s', 'p', 's', 'r'] then some (.spsr (.level n))
  else if stem = ['s', 'y', 's'] then
    if h : n < Cpu.SysReg.slotCount then some (.sys ⟨n, h⟩) else none
  else none

/-- The place that a word stands for. -/
def Place.ofText? (text : String) : Option Place :=
  match unnumbered.find? (·.text == text) with
  | some place => some place
  | none =>
    let (stem, digits) := Text.splitDigits text.toList
    match Text.readNumber 10 0x100000000 digits with
    | .ok n => numbered? stem n
    | .error _ => none

/-- The word for an operand. -/
def Operand.text : Operand → String
  | .imm value => "#" ++ Text.hex value.toNat
  | .place p => p.text

/-- The operand that a word stands for. -/
def Operand.ofText? (text : String) : Option Operand :=
  match text.toList with
  | '#' :: '0' :: 'x' :: digits =>
    match Text.readNumber 16 0x10000000000000000 digits with
    | .ok n => some (.imm (UInt64.ofNat n))
    | .error _ => none
  | _ => (Place.ofText? text).map .place

end Ir

end Dynarec
