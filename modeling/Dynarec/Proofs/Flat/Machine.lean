import Mathlib.Logic.Relation
import Dynarec.Interp.Basic
import Dynarec.Proofs.Compiler.Emitters
import Dynarec.Proofs.Compiler.Linked
import Dynarec.Proofs.Word.Bits

/-!
# The flat machine

A machine that knows nothing of blocks, functions and slots: it fetches the word at its program counter, decodes it
and carries out the one instruction. An instruction that goes on with the next one does what the operations do that
it is compiled to by itself; what a branch does is said here without them.
-/

namespace Dynarec

/-- The state that a return from an exception leaves: the flags, the choice of the stack pointer and the level are
those of a saved status. -/
def Cpu.State.restore (s : Cpu.State) (status : UInt64) : Cpu.State :=
  ((s.writeNzcv (.ofBits (status >>> 28).toNat)).writeSpsel (Bits.bit status 0)).writeEl (status >>> 2)

/-- A core with its memory and its program counter. -/
structure Flat where
  pc : UInt64
  cpu : Cpu.State
  mem : Memory

namespace Flat

open Interp (Services runOps)

/-- A host that serves nothing. -/
def unserved : Services Unit := ⟨fun _ => throw .outOfFuel, throw .outOfFuel⟩

/-- Go to a displacement if a branch is taken, else to the next instruction. -/
def branch (s : Flat) (taken : Bool) (offset : UInt64) : Flat :=
  { s with pc := if taken then s.pc + offset else s.pc + 4 }

/-- Go to an address, with the address of the next instruction in the link register. -/
def call (s : Flat) (target : UInt64) : Flat := ⟨target, s.cpu.writeX 30 .w64 (s.pc + 4), s.mem⟩

/-- Do what the operations do that a word is compiled to by itself, from scratch locals that are zero, and go on with
the next instruction. -/
def straight (word : UInt32) (s : Flat) : Option Flat :=
  match Compiler.lowerWord word ⟨s.pc, word, #[], none, .empty, .ofSize 0⟩ with
  | .error _ _ => none
  | .ok _ b =>
    match runOps unserved b.scratch.types b.ops.toList
        ⟨⟨s.cpu, s.mem, ()⟩, .replicate b.scratch.types.size 0⟩ with
    | .ok none f => some ⟨s.pc + 4, f.machine.cpu, f.machine.mem⟩
    | _ => none

/-- Carry out the instruction that a word encodes. -/
def execute (word : UInt32) (s : Flat) : Instr → Option Flat
  | .branchCond _ cond offset => some (s.branch (cond.holds s.cpu.readNzcv) offset)
  | .compareBranch width nonzero rt offset => some (s.branch ((s.cpu.readX rt width != 0) == nonzero) offset)
  | .testBranch nonzero bit rt offset =>
    some (s.branch (Bits.bit (s.cpu.readX rt .w64) bit == nonzero) offset)
  | .branch false offset => some (s.branch true offset)
  | .branch true offset => some (s.call (s.pc + offset))
  | .branchReg false rn => some { s with pc := s.cpu.readX rn .w64 }
  | .branchReg true rn => some (s.call (s.cpu.readX rn .w64))
  | .ret rn => some { s with pc := s.cpu.readX rn .w64 }
  | .exceptionReturn =>
    some ⟨s.cpu.readElr s.cpu.readEl, s.cpu.restore (s.cpu.readSpsr s.cpu.readEl), s.mem⟩
  | _ => s.straight word

/-- Fetch, decode and carry out one instruction. -/
def step (s : Flat) : Option Flat := do
  let word ← Compiler.wordAt s.mem s.pc
  let i ← Compiler.instrOf word
  s.execute word i

/-- One instruction leads from a state to another one. -/
def Steps (s s' : Flat) : Prop := s.step = some s'

/-- Finitely many instructions lead from a state to another one. -/
abbrev Reaches : Flat → Flat → Prop := Relation.ReflTransGen Steps

lemma steps_of_instr {s s' : Flat} {word : UInt32} {i : Instr} (hword : Compiler.wordAt s.mem s.pc = some word)
    (hi : Compiler.instrOf word = some i) (h : s.execute word i = some s') : s.Steps s' := by
  rw [Steps, step, hword, Option.bind_eq_bind, Option.bind_some, hi]
  exact h

lemma execute_straight {i : Instr} (h : i.isBranch = false) (word : UInt32) (s : Flat) :
    s.execute word i = s.straight word := by
  cases i with
  | branchCond | compareBranch | testBranch | branch | branchReg | ret | exceptionReturn => cases h
  | _ => rfl

end Flat

end Dynarec
