/-!
# Files

What commands do with files: read one, make a directory with those above it, write one. Commands
are written over any monad that can do this.
-/

namespace Dynarec.Cli

/-- Why a file could not be read or written: the reason in words and as a number. -/
structure FileError where
  reason : String
  code : Nat
  deriving DecidableEq, Repr

namespace FileError

/-- A name on the path stands for nothing. -/
def notFound : FileError := ⟨"No such file or directory", 2⟩

/-- The name is in use. -/
def alreadyExists : FileError := ⟨"File exists", 17⟩

/-- A name inside the path stands for a file. -/
def notDirectory : FileError := ⟨"Not a directory", 20⟩

/-- The path stands for a directory. -/
def isDirectory : FileError := ⟨"Is a directory", 21⟩

/-- A name on the path, or the path, is longer than any can be. -/
def nameTooLong : FileError := ⟨"File name too long", 36⟩

/-- What is said to the user. -/
def message (e : FileError) : String := e.reason ++ s!" (os error {e.code})"

end FileError

/-- What commands do with files, in a monad. -/
structure Files (m : Type → Type) where
  read : String → m (Except FileError ByteArray)
  createDirs : String → m (Except FileError Unit)
  write : String → ByteArray → m (Except FileError Unit)

end Dynarec.Cli
