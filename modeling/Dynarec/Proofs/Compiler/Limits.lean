import Dynarec.Proofs.Compiler.Cache
import Dynarec.Proofs.Shape.Cut

/-!
# Compiling with larger limits

A compiler with larger limits builds and compiles what one with smaller limits does, in the same
slots, unless the smaller limit on the number of blocks stops the first one.
-/

namespace Dynarec

/-- A loop budget is no less than another one; no budget at all is the largest. -/
def Looser (b b' : Option Nat) : Prop := ∀ n', b' = some n' → ∃ n ≤ n', b = some n

/-- Limits are no larger than others, and the choices are the same. -/
structure Config.Within (c c' : Config) : Prop where
  maxBlocks : c.maxBlocks ≤ c'.maxBlocks
  maxDepth : c.maxDepth ≤ c'.maxDepth
  loopBudget : Looser c.loopBudget c'.loopBudget
  tableSize : c'.tableSize = c.tableSize
  coalesce : c'.coalesce = c.coalesce

namespace Compiler

open Dynarec.EStateM (CutShort Outlasts)
open Linking (Code)

/-- A compiler with larger limits that has compiled the same. -/
def Wider (c c' : Compiler) : Prop :=
  ∃ config, c.config.Within config ∧ c' = { c with config }

/-- An error that says that a function has too many blocks. -/
def IsBlockLimit (e : Error) : Prop := ∃ entry limit, e = .blockLimit entry limit

/-- No part of a compiler is looked at when compiling is cut off. -/
abbrev AnyPart : Compiler → Compiler → Prop := fun _ _ => True

variable {mem : Memory} {entry : UInt64} {c c' : Compiler}

lemma discoverBlock_wider (mem : Memory) (start : UInt64) (d : Discovery) (h : Wider c c') :
    Outlasts Wider AnyPart IsBlockLimit (discoverBlock mem start d c)
      (discoverBlock mem start d c') := by
  obtain ⟨config, hwithin, rfl⟩ := h
  simp only [discoverBlock]
  cases translateBlock mem d.blockOf.contains start (.start start d.scratch c.slots) with
  | ok exits b => exact .ok ⟨config, hwithin, rfl⟩
  | error e b => exact .error ⟨config, hwithin, rfl⟩

/-- The same blocks are found, unless there are more than the smaller limit. -/
lemma discover_wider (mem : Memory) (entry : UInt64) (fuel : Nat) (pending : List UInt64) (d : Discovery) (h : Wider c c') :
    Outlasts Wider AnyPart IsBlockLimit (discover mem entry fuel pending d c)
      (discover mem entry fuel pending d c') := by
  induction fuel generalizing pending d c c' with
  | zero => exact .cut ⟨_, _, rfl⟩ trivial
  | succ fuel ih =>
    cases pending with
    | nil => exact .ok h
    | cons start pending =>
      rw [discover_cons, discover_cons]
      by_cases hknown : d.blockOf.contains start = true
      · simp only [hknown, if_true]
        exact ih pending d h
      · simp only [hknown]
        by_cases hlimit : c.config.maxBlocks ≤ d.blockOf.size
        · simp only [hlimit, if_true]
          exact .cut ⟨_, _, rfl⟩ trivial
        · have hlimit' : ¬ c'.config.maxBlocks ≤ d.blockOf.size := by
            obtain ⟨config, hwithin, rfl⟩ := h
            exact fun hle => hlimit (hwithin.maxBlocks.trans hle)
          simp only [hlimit, hlimit']
          have hblock := discoverBlock_wider mem start d h
          generalize discoverBlock mem start d c = r at hblock
          generalize discoverBlock mem start d c' = r' at hblock
          cases hblock with
          | ok h₁ => exact ih _ _ h₁
          | error h₁ => exact .error h₁
          | cut he h₁ => exact .cut he trivial

lemma assemble_wider {config config' : Config} (h : config.Within config') (d : Discovery) :
    assemble config' entry d = assemble config entry d := by
  rw [assemble_eq, assemble_eq]
  simp only [finished, h.coalesce]

/-- The same function is built. -/
lemma build_wider (mem : Memory) (entry : UInt64) (h : Wider c c') :
    Outlasts Wider AnyPart IsBlockLimit (build entry mem c) (build entry mem c') := by
  -- both search with the fuel that the larger limit asks for
  have hfuel : discover mem entry (2 * c'.config.maxBlocks + 2) [entry] .start c =
      discover mem entry (2 * c.config.maxBlocks + 2) [entry] .start c := by
    obtain ⟨config, hwithin, rfl⟩ := h
    have hle := hwithin.maxBlocks
    apply discover_fuel
    · rw [List.length_singleton]
      omega
    · change _ ≤ 2 * config.maxBlocks + 2
      omega
  have hconfig : c.config.Within c'.config := by
    obtain ⟨config, hwithin, rfl⟩ := h
    exact hwithin
  have hdiscover := discover_wider mem entry (2 * c'.config.maxBlocks + 2)
    [entry] .start h
  rw [hfuel] at hdiscover
  rw [build_eq, build_eq]
  generalize discover mem entry (2 * c.config.maxBlocks + 2) [entry] .start c = r at hdiscover
  generalize discover mem entry (2 * c'.config.maxBlocks + 2) [entry] .start c' = r' at hdiscover
  cases hdiscover with
  | @ok d c₁ c₂ h₁ =>
    dsimp only
    rw [assemble_wider hconfig]
    cases assemble c.config entry d with
    | ok f => exact .ok h₁
    | error e => exact .error h₁
  | error h₁ => exact .error h₁
  | cut he _ => exact .cut he trivial

/-- The same code is found or compiled. -/
theorem compile_wider (mem : Memory) (entry : UInt64) (h : Wider c c') :
    Outlasts Wider AnyPart IsBlockLimit (compile entry mem c) (compile entry mem c') := by
  have hsame : c'.compiled? entry = c.compiled? entry := by
    obtain ⟨config, hwithin, rfl⟩ := h
    rfl
  cases hcode : c.compiled? entry with
  | some code =>
    rw [compile_hit mem hcode, compile_hit mem (hsame.trans hcode)]
    obtain ⟨config, hwithin, rfl⟩ := h
    exact .ok ⟨config, hwithin, rfl⟩
  | none =>
    have hslot : Wider (c.withSlot entry) (c'.withSlot entry) ∧
        (c'.slots.functionSlot entry).1 = (c.slots.functionSlot entry).1 := by
      obtain ⟨config, hwithin, rfl⟩ := h
      exact ⟨⟨config, hwithin, rfl⟩, rfl⟩
    have hbuild := build_wider mem entry hslot.1
    rw [compile_miss mem hcode, compile_miss mem (hsame.trans hcode), hslot.2]
    generalize build entry mem (c.withSlot entry) = r at hbuild
    generalize build entry mem (c'.withSlot entry) = r' at hbuild
    cases hbuild with
    | @ok f c₁ c₂ h₁ =>
      obtain ⟨config, hwithin, rfl⟩ := h₁
      dsimp only
      cases c₁.backend.prepare f with
      | ok code => exact .ok ⟨config, hwithin, rfl⟩
      | error e => exact .error ⟨config, hwithin, rfl⟩
    | error h₁ => exact .error h₁
    | cut he _ => exact .cut he trivial

end Compiler

end Dynarec
