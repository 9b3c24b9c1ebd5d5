/-!
# Failures of commands

A command that fails says what it could not do and, from the outside in, why. One cause is
indented, several are numbered.
-/

namespace Dynarec.Cli

/-- What a command could not do, and the causes of it. -/
structure Failure where
  message : String
  causes : List String
  deriving DecidableEq, Repr

namespace Failure

/-- The lines for the causes. -/
def causeLines : List String → List String
  | [] => []
  | [cause] => ["", "Caused by:", "    " ++ cause]
  | causes => ["", "Caused by:"] ++ causes.zipIdx.map fun (cause, i) => s!"    {i}: " ++ cause

/-- What is said to the user about a failure. -/
def report (f : Failure) : String :=
  String.join ((("Error: " ++ f.message) :: causeLines f.causes).map (· ++ "\n"))

end Failure

end Dynarec.Cli
