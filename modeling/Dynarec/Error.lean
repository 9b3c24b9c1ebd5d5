import Dynarec.Flow.Graph
import Dynarec.Memory

/-!
# Errors

What can go wrong when guest code is compiled and run, by cause, and what is said to the user
about it.
-/

namespace Dynarec

/-- A failure of the compiler itself, whatever the guest program is. -/
inductive Violation where
  | doubleTerminated (pc : UInt64)
  | unknownBlock (source target : UInt64)
  | unreleasedScratch (pc : UInt64) (count : Nat)
  | releaseUnallocated (pc : UInt64) (scratch : Nat)
  | fellOffEnd (entry : UInt64)
  | structure (e : Flow.StructureError)
  deriving DecidableEq, Repr

/-- Why code cannot be lowered to a module, or a host cannot serve it. -/
inductive BackendError where
  | minPages (pages limit : Nat)
  | maxPages (pages least limit : Nat)
  | strayBranch (label : Nat)
  | notImported (name : String)
  | vacantSlot (slot : Nat)
  | refused (reason : String)
  deriving DecidableEq, Repr

/-- Why guest code is not compiled or does not run to its end. -/
inductive Error where
  | invalidEncoding (pc : UInt64) (word : UInt32)
  | unsupportedInstruction (pc : UInt64) (word : UInt32) (mnemonic : String)
  | fetchOutOfBounds (pc : UInt64)
  | invariant (v : Violation)
  | memory (e : Memory.Error)
  | blockLimit (entry : UInt64) (limit : Nat)
  | callDepthExceeded (depth : Nat)
  | budgetExhausted
  | backend (e : BackendError)
  deriving DecidableEq, Repr

namespace Error

/-- An address in a message. -/
def address (pc : UInt64) : String := Text.hex pc.toNat

end Error

/-- What is said to the user about a failure of the compiler. -/
def Violation.message : Violation → String
  | .doubleTerminated pc => "instruction at " ++ Error.address pc ++ " terminated its block twice"
  | .unknownBlock source target =>
    "block " ++ Error.address source ++ " branches to undiscovered block " ++ Error.address target
  | .unreleasedScratch pc count =>
    s!"{count} scratch locals still held when finishing block at " ++ Error.address pc
  | .releaseUnallocated pc id =>
    "instruction at " ++ Error.address pc ++ s!" released local {id} that is not allocated"
  | .fellOffEnd entry => "function " ++ Error.address entry ++ " finished without returning"
  | .structure e => e.message

/-- What is said to the user about code that cannot be lowered or served. -/
def BackendError.message : BackendError → String
  | .minPages pages limit => s!"env.memory min_pages ({pages}) exceeds wasm32 max pages ({limit})"
  | .maxPages pages least limit =>
    s!"env.memory max_pages ({pages}) must lie in {least}..={limit}"
  | .strayBranch label => s!"branch to label {label} outside its construct"
  | .notImported name => s!"env.{name} used but not imported"
  | .vacantSlot slot => s!"call through vacant slot {slot}"
  | .refused reason => reason

/-- What is said to the user about an error. -/
def Error.message : Error → String
  | .invalidEncoding pc word =>
    "invalid instruction encoding " ++ Text.hexPadded 8 word.toNat ++ " at " ++ address pc
  | .unsupportedInstruction pc word mnemonic =>
    s!"unsupported instruction `{mnemonic}` (" ++ Text.hexPadded 8 word.toNat ++ ") at " ++
      address pc
  | .fetchOutOfBounds pc => "instruction fetch at " ++ address pc ++ " is outside guest memory"
  | .invariant v => "compiler invariant violated: " ++ v.message
  | .memory e => e.message
  | .blockLimit entry limit =>
    "function " ++ address entry ++ s!" exceeds the limit of {limit} blocks"
  | .callDepthExceeded depth => s!"guest call depth exceeded {depth}"
  | .budgetExhausted => "loop budget exhausted"
  | .backend e => "backend error: " ++ e.message

/-- An error and the failure below it, if it tells of one, as they are said to the user. -/
def Error.chain (e : Error) : List String :=
  match e with
  | .invariant v => [e.message, v.message]
  | _ => [e.message]

end Dynarec
