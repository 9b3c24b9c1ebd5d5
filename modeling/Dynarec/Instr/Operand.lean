import Dynarec.Cpu.Cond
import Dynarec.Text.Hex
import Dynarec.Word.Bits

/-!
# Operand text

How the operands of instructions are written in listings. A number below ten is written in decimal
and a larger one in hexadecimal; register 31 is the zero register or the stack pointer, as the
instruction has it.
-/

namespace Dynarec.Instr

/-- How an access forms its address from its base and its offset, and whether it moves the base. -/
inductive AddrMode where
  | offset
  | preIndex
  | postIndex
  deriving DecidableEq, Repr

namespace Operand

/-- A number, in decimal below ten. -/
def number (n : Nat) : String := if n < 10 then toString n else Text.hex n

/-- An immediate without a sign. -/
def unsigned (n : Nat) : String := "#" ++ number n

/-- The immediate that a word denotes as a signed number. -/
def signed (value : UInt64) : String :=
  if value < 0x8000000000000000 then unsigned value.toNat
  else "#-" ++ number (-value).toNat

/-- A word of data. -/
def data (word : UInt32) : String := ".inst " ++ Text.hexPadded 8 word.toNat

/-- The letter of registers of a width. -/
def letter : Width → String
  | .w32 => "w"
  | .w64 => "x"

/-- A general register; 31 is the zero register. -/
def reg (width : Width) (n : Nat) : String :=
  if n = 31 then letter width ++ "zr" else letter width ++ toString n

/-- A general register; 31 is the stack pointer. -/
def regOrSp (width : Width) (n : Nat) : String :=
  if n = 31 then (match width with | .w32 => "wsp" | .w64 => "sp") else reg width n

/-- The name of a shift. -/
def shiftName (shift : Nat) : String :=
  match shift % 4 with
  | 0 => "lsl"
  | 1 => "lsr"
  | 2 => "asr"
  | _ => "ror"

/-- The name of an extension. -/
def extendName (option : Nat) : String :=
  match option % 8 with
  | 0 => "uxtb"
  | 1 => "uxth"
  | 2 => "uxtw"
  | 3 => "uxtx"
  | 4 => "sxtb"
  | 5 => "sxth"
  | 6 => "sxtw"
  | _ => "sxtx"

/-- The operand that tells how a register is shifted; a left shift by zero is not written. -/
def shiftSuffix (shift amount : Nat) : List String :=
  if amount = 0 ∧ shift = 0 then [] else [shiftName shift ++ " " ++ unsigned amount]

/-- A memory operand with an immediate offset. -/
def memory (base : Nat) (offset : UInt64) (mode : AddrMode) : String :=
  let base := regOrSp .w64 base
  match mode with
  | .offset => if offset = 0 then s!"[{base}]" else "[" ++ base ++ ", " ++ signed offset ++ "]"
  | .preIndex => "[" ++ base ++ ", " ++ signed offset ++ "]!"
  | .postIndex => "[" ++ base ++ "], " ++ signed offset

/-- A mnemonic with its operands. -/
def line (mnemonic : String) : List String → String
  | [] => mnemonic
  | operands => mnemonic ++ " " ++ ", ".intercalate operands

/-- The displacement that a branch field of `bits` bits counts in words. -/
def branchOffset (field bits : Nat) : UInt64 :=
  Bits.signExtend (UInt64.ofNat (field * 4)) (bits + 2)

end Operand

end Dynarec.Instr
