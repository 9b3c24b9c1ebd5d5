import Dynarec.Cli.Program

/-!
# Command line

The program over the files of the disk.
-/

namespace Dynarec

/-- What the system says about a failed operation on a file. -/
def Cli.FileError.ofSystem : IO.Error → Cli.FileError
  | .noFileOrDirectory _ code reason | .inappropriateType _ code reason
  | .alreadyExists _ code reason | .permissionDenied _ code reason
  | .resourceExhausted _ code reason | .invalidArgument _ code reason
  | .otherError code reason | .unsatisfiedConstraints code reason
  | .resourceBusy code reason | .hardwareFault code reason => ⟨reason, code.toNat⟩
  | e => ⟨toString e, 0⟩

/-- Do something with a file of the disk. -/
def Cli.onDisk {α : Type} (act : IO α) : IO (Except Cli.FileError α) := do
  match ← act.toBaseIO with
  | .ok a => return .ok a
  | .error e => return .error (.ofSystem e)

/-- The operations of commands on the disk. -/
def Cli.disk : Cli.Files IO where
  read := fun path => Cli.onDisk (IO.FS.readBinFile path)
  createDirs := fun path => Cli.onDisk (IO.FS.createDirAll path)
  write := fun path data => Cli.onDisk (IO.FS.writeBinFile path data)

end Dynarec

/-- Carry out the command line. -/
def main (args : List String) : IO UInt32 := do
  let exit ← Dynarec.Cli.perform Dynarec.Cli.disk 0x4000000000000000 args
  IO.print exit.output
  IO.eprint exit.errors
  return UInt32.ofNat exit.code
