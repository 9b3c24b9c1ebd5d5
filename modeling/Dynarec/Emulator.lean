import Dynarec.Compiler.Basic
import Dynarec.Interp.Basic

/-!
# Running guest code

A core with its memory and the compiler that its code goes through. Functions are compiled when
they are first run. Calls nest up to a limit, and jumps back to the start of a loop are charged to
one budget for the whole run. A run is bounded; one whose bound is reached is told apart from one
that ends with an error.
-/

namespace Dynarec

/-- What the host of running guest code keeps: the compiler, how deep calls nest, and what is left
of the loop budget, if there is one. -/
structure Host where
  compiler : Compiler
  depth : Nat
  budget : Option Nat

/-- A core that runs guest code. -/
abbrev Emulator := Machine Host

namespace Emulator

/-- A core after reset. -/
def start (mem : Memory) (backend : Backend) (config : Config) : Emulator :=
  ⟨.reset, mem, ⟨.start backend config, 0, none⟩⟩

/-- Charge one jump back to the start of a loop. -/
def tick : Run Error Emulator Unit := fun ⟨cpu, mem, ⟨compiler, depth, budget⟩⟩ =>
  match budget with
  | some 0 => .error (.error .budgetExhausted) ⟨cpu, mem, ⟨compiler, depth, budget⟩⟩
  | some (left + 1) => .ok () ⟨cpu, mem, ⟨compiler, depth, some left⟩⟩
  | none => .ok () ⟨cpu, mem, ⟨compiler, depth, budget⟩⟩

/-- The code of the function at an address. -/
def compile (pc : UInt64) : Run Error Emulator Linking.Code :=
  fun ⟨cpu, mem, ⟨compiler, depth, budget⟩⟩ =>
    match Compiler.compile pc mem compiler with
    | .ok code compiler => .ok code ⟨cpu, mem, ⟨compiler, depth, budget⟩⟩
    | .error e compiler => .error (.error e) ⟨cpu, mem, ⟨compiler, depth, budget⟩⟩

/-- The code that a request asks to be run. -/
def resolve : Interp.Request → Run Error Emulator Linking.Code
  | .jump pc => compile pc
  | .call slot => fun m =>
    match m.host.compiler.slot? slot with
    | some (.compiled _ code) => .ok code m
    | some (.trampoline entry) => compile entry m
    | some .vacant | none => .error (.error (.backend (.vacantSlot slot))) m

/-- Nest one call deeper. -/
def enter : Run Error Emulator Unit := fun ⟨cpu, mem, ⟨compiler, depth, budget⟩⟩ =>
  let limit := compiler.config.maxDepth
  if limit ≤ depth then
    .error (.error (.callDepthExceeded limit)) ⟨cpu, mem, ⟨compiler, depth, budget⟩⟩
  else .ok () ⟨cpu, mem, ⟨compiler, depth + 1, budget⟩⟩

/-- Leave a call. -/
def leave : Emulator → Emulator
  | ⟨cpu, mem, ⟨compiler, depth, budget⟩⟩ => ⟨cpu, mem, ⟨compiler, depth - 1, budget⟩⟩

/-- Serve a request of running code. The fuel bounds both how deep requests nest and how often one
loop starts again. -/
def serve : Nat → Interp.Request → Run Error Emulator UInt64
  | 0, _ => throw .outOfFuel
  | fuel + 1, request => do
    let code ← resolve request
    enter
    fun m =>
      match Interp.invoke ⟨serve fuel, tick⟩ fuel code.function m with
      | .ok value m => .ok value (leave m)
      | .error e m => .error e (leave m)

/-- Run the function at an address, with the nesting and the budget of a new run; gives the guest
address that it returns to. -/
def execute (fuel : Nat) (entry : UInt64) : Run Error Emulator UInt64 :=
  fun ⟨cpu, mem, ⟨compiler, _, _⟩⟩ =>
    serve fuel (.jump entry) ⟨cpu, mem, ⟨compiler, 0, compiler.config.loopBudget⟩⟩

end Emulator

end Dynarec
