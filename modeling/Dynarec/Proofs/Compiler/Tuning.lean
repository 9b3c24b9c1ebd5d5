import Dynarec.Proofs.Compiler.Cache
import Dynarec.Proofs.Compiler.Total
import Dynarec.Proofs.Interp.Siblings
import Dynarec.Proofs.Linking.Alike

/-!
# Compiling with other tuning

Whether chains of blocks are merged, and how many slots there are at the start, does not show in what
is compiled: the same functions are built from the same blocks, in the same slots, and fail with the
same errors. Only the form into which a function is brought depends on it.
-/

namespace Dynarec

/-- Configurations with the same limits: only whether chains are merged and how many slots there are
at the start may differ. -/
structure Config.SameLimits (c c' : Config) : Prop where
  maxBlocks : c'.maxBlocks = c.maxBlocks
  maxDepth : c'.maxDepth = c.maxDepth
  loopBudget : c'.loopBudget = c.loopBudget

lemma Config.SameLimits.symm {c c' : Config} (h : c.SameLimits c') : c'.SameLimits c :=
  ⟨h.maxBlocks.symm, h.maxDepth.symm, h.loopBudget.symm⟩

namespace Compiler

open Ir (Op Operand)
open Linking (Code Slot Slots)

variable {mem : Memory} {entry : UInt64} {c c' : Compiler} {α : Type}

/-! ### Forms of functions -/

lemma sequential_tracer {H : Type} (noting : Cpu.State → Memory → H → H) (s : Interp.Services H)
    (types : Array Ir.Ty) : Sequential (Interp.tracer noting s types) :=
  ⟨Interp.traceOps_append, Interp.traceOps_ne_none⟩

/-- Everything that is found is assembled to forms of one function. -/
lemma Discovery.Regular.siblings {d : Discovery} (h : d.Regular [])
    (hentry : d.blockOf.contains entry) (config config' : Config) :
    ∃ f f', assemble config entry d = .ok f ∧ assemble config' entry d = .ok f' ∧
      Interp.Siblings f f' := by
  obtain ⟨g, block, hlink, hblock, hwhole⟩ := h.whole hentry
  obtain ⟨x, hx, hends⟩ := hwhole.ends config
  obtain ⟨x', hx', hends'⟩ := hwhole.ends config'
  refine ⟨⟨entry, d.scratch.types, x⟩, ⟨entry, d.scratch.types, x'⟩, ?_, ?_, rfl, rfl, ?_⟩
  · rw [assemble_eq, hlink]
    simp only [hblock, hx]
  · rw [assemble_eq, hlink]
    simp only [hblock, hx']
  · intro H noting s frame r
    have hv := sequential_tracer noting s d.scratch.types
    exact (hends hv frame r).trans (hends' hv frame r).symm

/-! ### Compilers -/

/-- Code of two forms of one function. -/
def SameCode (code code' : Code) : Prop := Interp.Siblings code.function code'.function

/-- Compilers for the interpreter that have the same limits and have compiled forms of the same
functions in the same slots. -/
structure Tuned (c c' : Compiler) : Prop where
  backend : c.backend = .interpreter
  backend' : c'.backend = .interpreter
  limits : c.config.SameLimits c'.config
  slots : c.slots.Alike SameCode c'.slots

lemma tuned_start {config config' : Config} (h : config.SameLimits config') :
    Tuned (.start .interpreter config) (.start .interpreter config') where
  backend := rfl
  backend' := rfl
  limits := h
  slots := Slots.alike_ofSize _ _

/-- The same addresses are asked for. -/
lemma Tuned.ask (h : Tuned c c') (asked : List UInt64) (blocks blocks' : Nat) :
    Tuned { c with slots := c.slots.ask asked, blocksDiscovered := blocks }
      { c' with slots := c'.slots.ask asked, blocksDiscovered := blocks' } :=
  ⟨h.backend, h.backend', h.limits, h.slots.ask asked⟩

/-- Two compilers end alike: with related values or with the same error. -/
inductive EndsTuned (P : α → α → Prop) :
    EStateM.Result Error Compiler α → EStateM.Result Error Compiler α → Prop where
  | ok {a a' : α} {c c' : Compiler} : P a a' → Tuned c c' → EndsTuned P (.ok a c) (.ok a' c')
  | error {e : Error} {c c' : Compiler} : Tuned c c' → EndsTuned P (.error e c) (.error e c')

/-- What is found from an address hangs on nothing of a compiler but its limit on blocks. -/
lemma exists_found (entry : UInt64) (mem : Memory) (limit : Nat) :
    ∃ y : Finding Discovery, ∀ c, c.config.maxBlocks = limit →
      discover mem entry (2 * limit + 2) [entry] .start c = y.on Discovery.link c := by
  have hstart : Discovery.start.Unlinked mem [] := Flow.Graph.all_empty
  obtain ⟨y, words, -, -, h⟩ := discover_yields entry limit (2 * limit + 2) [entry] hstart
  refine ⟨y, fun c hc => ?_⟩
  rw [← (h mem (.inl rfl) (fun _ _ => rfl) c hc nofun).1, Discovery.link_start]

/-- Forms of the same function are built. -/
lemma Tuned.build (h : Tuned c c') (entry : UInt64) (mem : Memory) :
    EndsTuned Interp.Siblings (build entry mem c) (build entry mem c') := by
  obtain ⟨y, hy⟩ := exists_found entry mem c.config.maxBlocks
  have hcompletes := discover_completes mem entry (2 * c.config.maxBlocks + 2)
    (regular_start [entry]) c
  rw [build_eq, build_eq, h.limits.maxBlocks, hy c' h.limits.maxBlocks]
  rw [hy c rfl] at hcompletes ⊢
  have hasked := h.ask y.asked (c.blocksDiscovered + y.blocks) (c'.blocksDiscovered + y.blocks)
  unfold Finding.on at hcompletes ⊢
  rw [(h.slots.ask y.asked).slotOf]
  cases hresult : y.result with
  | error e => exact .error hasked
  | ok d =>
    rw [hresult] at hcompletes
    obtain ⟨hregular, -, htaken⟩ := hcompletes
    obtain ⟨f, f', hf, hf', hsame⟩ :=
      hregular.siblings (htaken entry List.mem_cons_self) c.config c'.config
    simp only [Except.map, endIn, hf, hf']
    exact .ok hsame hasked

/-- The slot of a number holds the same in both. -/
lemma Tuned.slot? (h : Tuned c c') (slot : Nat) :
    Slot.Alike SameCode (c.slot? slot) (c'.slot? slot) := h.slots.slots slot

/-- The same functions have been compiled. -/
lemma Tuned.compiled? (h : Tuned c c') (a : UInt64) :
    (c.compiled? a = none ∧ c'.compiled? a = none) ∨ ∃ code code',
      c.compiled? a = some code ∧ c'.compiled? a = some code' ∧ SameCode code code' := by
  have hlookup : c'.lookup a = c.lookup a := congrArg (·[a]?) h.slots.ofAddr
  unfold Compiler.compiled?
  rw [hlookup]
  cases c.lookup a with
  | none => exact .inl ⟨rfl, rfl⟩
  | some slot =>
    simp only [Option.bind_some]
    have hslot := h.slot? slot
    generalize c.slot? slot = o at hslot ⊢
    generalize c'.slot? slot = o' at hslot ⊢
    cases hslot with
    | trampoline b => exact .inl ⟨rfl, rfl⟩
    | compiled b hf => exact .inr ⟨_, _, rfl, rfl, hf⟩
    | unused ho ho' =>
      refine .inl ⟨?_, ?_⟩
      · rcases o with _ | e
        · rfl
        · rw [ho e rfl]
      · rcases o' with _ | e'
        · rfl
        · rw [ho' e' rfl]

/-- Forms of the same function are compiled. -/
theorem Tuned.compile (h : Tuned c c') (entry : UInt64) (mem : Memory) :
    EndsTuned SameCode (compile entry mem c) (compile entry mem c') := by
  rcases h.compiled? entry with ⟨hnone, hnone'⟩ | ⟨code, code', hcode, hcode', hsame⟩
  · obtain ⟨hslot, hslots⟩ := h.slots.functionSlot entry
    have hwith : Tuned (c.withSlot entry) (c'.withSlot entry) :=
      ⟨h.backend, h.backend', h.limits, hslots⟩
    have hbuild := hwith.build entry mem
    rw [compile_miss mem hnone, compile_miss mem hnone', hslot]
    cases hb : Compiler.build entry mem (c.withSlot entry) with
    | error e c₁ =>
      rw [hb] at hbuild
      generalize Compiler.build entry mem (c'.withSlot entry) = r' at hbuild
      cases hbuild with
      | error h₁ => exact .error h₁
    | ok f c₁ =>
      -- the address keeps the slot that it has been given
      have howner : c₁.slots.ofAddr[entry]? = some (c.slots.functionSlot entry).1 := by
        obtain ⟨asked, hasked⟩ := build_slots entry mem (c.withSlot entry)
        rw [hb] at hasked
        rw [show c₁.slots = _ from hasked]
        exact Slots.ofAddr_ask_of_some (Slots.ofAddr_functionSlot c.slots entry) asked
      rw [hb] at hbuild
      generalize Compiler.build entry mem (c'.withSlot entry) = r' at hbuild
      cases hbuild with
      | @ok _ f' _ c₁' hf h₁ =>
        dsimp only
        rw [h₁.backend, h₁.backend']
        refine .ok hf ⟨h₁.backend, h₁.backend', h₁.limits, ?_⟩
        exact h₁.slots.set howner entry hf
  · rw [compile_hit mem hcode, compile_hit mem hcode']
    exact .ok hsame ⟨h.backend, h.backend', h.limits, h.slots⟩

end Compiler

end Dynarec
