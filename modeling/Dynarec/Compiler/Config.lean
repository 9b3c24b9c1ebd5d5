import Dynarec.Linking.Code
import Dynarec.Wasm.Codegen

/-!
# Compilers

What a compiler is set up with, what it counts, and its state: the slots of guest addresses with
what is compiled for them.
-/

namespace Dynarec

/-- The limits and choices of a compiler: the most blocks of a function, the slots at the start,
whether straight-line chains of blocks are merged, how deep guest calls nest, and how many jumps
back to the start of a loop a run may make, if that is limited. -/
structure Config where
  maxBlocks : Nat
  tableSize : Nat
  coalesce : Bool
  maxDepth : Nat
  loopBudget : Option Nat
  deriving DecidableEq, Repr

/-- The limits and choices that are used where none are given. -/
def Config.default : Config := ⟨16384, 1, true, 4096, none⟩

/-- Whether functions are only run, or modules are made for them too. -/
inductive Backend where
  | interpreter
  | webAssembly (options : Wasm.Options)
  deriving DecidableEq, Repr

/-- Make a compiled function ready to run. -/
def Backend.prepare (b : Backend) (f : Ir.Function) : Except Error Linking.Code :=
  match b with
  | .interpreter => .ok ⟨f, none⟩
  | .webAssembly options => (Wasm.emitFunction f options).map fun binary => ⟨f, some binary⟩

/-- A compiler: how it is set up, the slots, and how often it has compiled a function, found a
block, and found a function compiled. -/
structure Compiler where
  backend : Backend
  config : Config
  slots : Linking.Slots Linking.Code
  compilations : Nat
  blocksDiscovered : Nat
  cacheHits : Nat

/-- A compiler that has compiled nothing. -/
def Compiler.start (backend : Backend) (config : Config) : Compiler :=
  ⟨backend, config, .ofSize config.tableSize, 0, 0, 0⟩

end Dynarec
