import Dynarec.Cli.Command
import Dynarec.Cli.Failure
import Dynarec.Cli.Files
import Dynarec.Cpu.Dump
import Dynarec.Emulator
import Dynarec.Instr.Listing

/-!
# Carrying out commands

Commands are carried out over any monad with files, and end with what they print and perhaps a
failure. A run prints the address that the function returned to and a register dump; it then
writes the modules of the compiled functions, if a directory is given for them.
-/

namespace Dynarec.Cli

/-- What a command leaves: what it prints, and why it failed, if it did. -/
structure Outcome where
  output : String
  failure : Option Failure
  deriving DecidableEq, Repr

/-- What the program leaves: its exit code and what it prints. -/
structure Exit where
  code : Nat
  output : String
  errors : String
  deriving DecidableEq, Repr

/-- The exit of a command. -/
def Outcome.exit (o : Outcome) : Exit :=
  match o.failure with
  | none => ⟨0, o.output, ""⟩
  | some f => ⟨1, o.output, f.report⟩

/-- The exit for a command line that is not understood. -/
def UsageError.exit (e : UsageError) : Exit := ⟨2, "", "error: " ++ e.message ++ "\n"⟩

variable {m : Type → Type} [Monad m]

/-- Read a file. -/
def readFile (files : Files m) (path : String) : ExceptT Failure m ByteArray := do
  match ← files.read path with
  | .ok data => return data
  | .error e => throw ⟨"failed to read " ++ path, [e.message]⟩

/-- The words of an image. -/
def imageWords (data : ByteArray) : List UInt32 :=
  (List.range (data.size / 4)).map fun i => (Bytes.readWord data (i * 4) 4).toUInt32

/-- Leave out every mark of hexadecimal at the front of a word. -/
def dropMarks : List Char → List Char
  | '0' :: 'x' :: rest => dropMarks rest
  | word => word

/-- The word of digits that a user has given. -/
def readInstruction (text : String) : Except Failure UInt32 :=
  match Text.readNumber 16 0x100000000 (dropMarks text.toList) with
  | .ok n => .ok (UInt32.ofNat n)
  | .error e => .error ⟨"invalid word " ++ Text.quoted text, [e.message]⟩

/-- The words to list. -/
def WordSource.words (files : Files m) : WordSource → ExceptT Failure m (List UInt32)
  | .given words => ExceptT.mk (pure (words.mapM readInstruction))
  | .image path => do
    let data ← readFile files path
    if data.size % 4 != 0 then throw ⟨path ++ " is not a whole number of words", []⟩
    return imageWords data

/-- Print a listing. -/
def list (files : Files m) (source : WordSource) (base : UInt64) : m Outcome := do
  match ← (source.words files).run with
  | .ok words => return ⟨Instr.listing base words, none⟩
  | .error f => return ⟨"", some f⟩

/-- The general register of a name; `lr` is register 30. -/
def register? (name : String) : Option Nat :=
  match name.toList with
  | ['l', 'r'] => some 30
  | 'x' :: digits => ((Text.readNumber 10 256 digits).toOption).filter (· < 31)
  | _ => none

/-- Carry out an assignment of a value to a register. -/
def assign (s : Cpu.State) (text : String) : Except Failure Cpu.State :=
  let name := text.toList.takeWhile (· != '=')
  if text.length ≤ name.length then
    .error ⟨"expected REG=VALUE, got " ++ Text.quoted text, []⟩
  else
    let name := String.ofList name
    match Command.readWord (String.ofList (text.toList.drop (name.length + 1))) with
    | .error reason => .error ⟨reason, []⟩
    | .ok value =>
      if name = "sp" then .ok (s.writeSp value)
      else
        match register? name with
        | some n => .ok (s.writeX n .w64 value)
        | none => .error ⟨"unknown register " ++ Text.quoted name, []⟩

/-- The size of memory in bytes, which has to fit a word. -/
def ramSize (kib : Nat) : Except Failure Nat :=
  if kib * 1024 < 0x10000000000000000 then .ok (kib * 1024) else .error ⟨"RAM size overflow", []⟩

/-- Memory of a size with an image in it. -/
def loadImage (size : Nat) (addr : UInt64) (image : ByteArray) : Except Failure Memory :=
  match Memory.writeBytes addr image (.zeroed size) with
  | .ok _ mem => .ok mem
  | .error e _ => .error ⟨"image does not fit at " ++ Error.address addr, [e.message]⟩

/-- What is compiled for: modules with the memory of the run, if they are asked for. -/
def RunOptions.backend (o : RunOptions) (size : Nat) : Backend :=
  match o.moduleDir with
  | some _ => .webAssembly { Wasm.Options.default with ramBytes := some size }
  | none => .interpreter

/-- Run the function at the entry on memory; gives the address returned to. -/
def runMemory (fuel : Nat) (o : RunOptions) (mem : Memory) :
    Except Failure (UInt64 × Emulator) := do
  let size := mem.size
  let start := Emulator.start mem (o.backend size)
    { Config.default with loopBudget := o.loopBudget }
  let cpu ← o.assignments.foldlM assign start.cpu
  let failed := "guest function at " ++ Error.address o.entry ++ " failed"
  match Emulator.execute fuel o.entry { start with cpu } with
  | .ok returned emulator => .ok (returned, emulator)
  | .error (.error e) _ => .error ⟨failed, e.chain⟩
  | .error .outOfFuel _ => .error ⟨failed, ["step bound reached"]⟩

/-- Load the image and run the function at the entry. -/
def start (files : Files m) (fuel : Nat) (o : RunOptions) :
    ExceptT Failure m (UInt64 × Emulator) := do
  let size ← ramSize o.ramKib
  let image ← readFile files o.image
  let mem ← loadImage size o.loadAddr image
  runMemory fuel o mem

/-- The file for the module of a function. -/
def modulePath (dir : String) (entry : UInt64) : String :=
  (if dir.endsWith "/" then dir else dir ++ "/") ++ "fn_" ++
    String.ofList (Text.hexDigits entry.toNat) ++ ".wasm"

/-- The modules of the compiled functions with their entries, in the order of the slots. -/
def compiledModules (c : Compiler) : List (UInt64 × ByteArray) :=
  c.slots.table.slots.toList.filterMap fun
    | .compiled entry code => code.binary.map fun data => (entry, data)
    | _ => none

/-- Write the modules of the compiled functions into a directory. -/
def writeModules (files : Files m) (dir : String) (c : Compiler) : ExceptT Failure m Unit := do
  match ← files.createDirs dir with
  | .ok _ => pure ()
  | .error e => throw ⟨"failed to create " ++ dir, [e.message]⟩
  (compiledModules c).forM fun (entry, data) => do
    let path := modulePath dir entry
    match ← files.write path data with
    | .ok _ => pure ()
    | .error e => throw ⟨"failed to write " ++ path, [e.message]⟩

/-- Run an image, print where it returned to and its registers, and write the modules. -/
def run (files : Files m) (fuel : Nat) (o : RunOptions) : m Outcome := do
  match ← (start files fuel o).run with
  | .error f => return ⟨"", some f⟩
  | .ok (returned, emulator) =>
    let output := "returned to " ++ Error.address returned ++ "\n" ++ emulator.cpu.dump
    match o.moduleDir with
    | none => return ⟨output, none⟩
    | some dir =>
      match ← (writeModules files dir emulator.host.compiler).run with
      | .ok _ => return ⟨output, none⟩
      | .error f => return ⟨output, some f⟩

/-- Carry out a command. -/
def Command.perform (files : Files m) (fuel : Nat) : Command → m Outcome
  | .list source base => Cli.list files source base
  | .run options => Cli.run files fuel options

/-- Carry out a command line. -/
def perform (files : Files m) (fuel : Nat) (args : List String) : m Exit := do
  match Command.ofArguments args with
  | .ok command => return (← command.perform files fuel).exit
  | .error e => return e.exit

end Dynarec.Cli
