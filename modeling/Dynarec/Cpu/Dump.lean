import Dynarec.Cpu.State
import Dynarec.Text.Hex

/-!
# Register dumps

The registers as lines of text: the general registers in rows of four, then the selected stack
pointer, the exception level, the flags and the exception masks.
-/

namespace Dynarec.Cpu

/-- The letters of the flags that are set, with a dash for each one that is not. -/
def Nzcv.letters (f : Nzcv) : String :=
  let letter := fun (set : Bool) c => if set then c else '-'
  String.ofList [letter f.n 'N', letter f.z 'Z', letter f.c 'C', letter f.v 'V']

namespace State

/-- A word as sixteen digits. -/
def fullDigits (w : UInt64) : String := String.ofList (Text.paddedDigits 16 w.toNat)

/-- A general register with its name, which takes three columns. -/
def dumpX (s : State) (n : Nat) : String :=
  (if n < 10 then s!"x{n} " else s!"x{n}") ++ " " ++ fullDigits (s.readX n .w64)

/-- The row of general registers from a number on. -/
def dumpRow (s : State) (first : Nat) : String :=
  let numbers := (List.range' first 4).filter (· < 31)
  String.intercalate "  " (numbers.map s.dumpX) ++ "\n"

/-- The lines of a dump. -/
def dump (s : State) : String :=
  String.join ((List.range 8).map fun row => s.dumpRow (row * 4)) ++
    "sp  " ++ fullDigits s.readSp ++ "  el " ++ toString s.readEl ++ "  nzcv " ++
    s.readNzcv.letters ++ "  daif " ++ Text.hex s.daif.toNat ++ "\n"

end State

end Dynarec.Cpu
