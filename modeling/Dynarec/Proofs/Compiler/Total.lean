import Dynarec.Proofs.Compiler.Regular
import Dynarec.Proofs.Flow.Returning
import Dynarec.Proofs.Interp.Ending
import Dynarec.Proofs.Wasm.Valid

/-!
# Compiling does not go wrong

Building a function fails only for what the guest program or the limit on blocks is to blame for. A
function that is built can be run and emitted, and a run of it does not come to its end without a
value.
-/

namespace Dynarec

open Ir (Op Operand)

/-- A function that the interpreter takes, that can be emitted whenever the limits of the memory are
in order, and that fails for want of a value only if the host raises that error. -/
structure Ir.Function.Sound (f : Ir.Function) : Prop where
  prepared : Backend.prepare .interpreter f = .ok ⟨f, none⟩
  emitted : ∀ o : Wasm.Options, o.Limited → ∃ bytes, Wasm.emitFunction f o = .ok bytes
  returns : ∀ {H : Type} (s : Interp.Services H) (fuel : Nat) (m m' : Machine H) (entry : UInt64),
    Interp.invoke s fuel f m = .error (.error (.invariant (.fellOffEnd entry))) m' →
      s.Raises (.error (.invariant (.fellOffEnd entry))) m'

namespace Compiler

/-- A visitor runs joined operations one after the other. -/
lemma joins_visitor {H : Type} (s : Interp.Services H) (types : Array Ir.Ty) :
    Flow.Graph.Joins (Interp.visitor s types) (· ++ ·) :=
  Interp.runOps_append

lemma runBody_of_bodyAt {g : Flow.Graph (List Op) Operand} {n : Nat} {ops : List Op} (h : bodyAt g n = some ops)
    {ε σ : Type} (v : Shape.Visitor (List Op) Operand ε σ) : g.runBody v n = v.body ops := by
  obtain ⟨⟨body, exits, absorbed⟩, hblk, hbody⟩ := Option.bind_eq_some_iff.1 h
  obtain rfl : body = some ops := hbody
  simp only [Flow.Graph.runBody, hblk]

/-- Blocks without exits return, for a visitor that does not go on after operations of which one
returns. -/
lemma Whole.returns_of {g : Flow.Graph (List Op) Operand} (h : Whole g) {ε σ : Type}
    {v : Shape.Visitor (List Op) Operand ε σ}
    (hv : ∀ {ops}, (∃ y, .ret y ∈ ops) → ∀ s s', v.body ops s ≠ .ok none s') : g.Returns v := by
  intro n hn hnil s s'
  have hlt := hn.lt (Flow.Graph.validate_eq_ok h.valid).1 (Flow.Graph.validate_eq_ok h.valid).1.entry
  obtain ⟨ops, y, hops, hy⟩ := h.returns n hlt hnil
  rw [runBody_of_bodyAt hops]
  exact hv ⟨y, hy⟩ s s'

lemma Whole.returns_visitor {g : Flow.Graph (List Op) Operand} (h : Whole g) {H : Type}
    (s : Interp.Services H) (types : Array Ir.Ty) : g.Returns (Interp.visitor s types) :=
  h.returns_of Interp.runOps_ne_none

/-- The graph of a function is brought into structured form, and its walks return. -/
lemma Whole.structurize {block : Nat} {g : Flow.Graph (List Op) Operand}
    (h : Whole (g.setEntry block)) (config : Config) :
    ∃ x, (finished config block g).structurize = .ok x ∧ x.Scoped [] ∧
      ∀ {H : Type} (s : Interp.Services H) (types : Array Ir.Ty) fuel f f',
        x.walk (Interp.visitor s types) fuel f ≠ .ok none f' := by
  unfold finished
  split
  · obtain ⟨x, hx, hscoped, hwalk⟩ := Flow.Graph.returning_coalesce h.valid h.built.plain
      h.built.bodied (· ++ ·)
    exact ⟨x, hx, hscoped, fun s types => hwalk _ ⟨joins_visitor s types, h.returns_visitor s types⟩⟩
  · obtain ⟨x, hx, hscoped, hwalk⟩ := Flow.Graph.returning_of_validate h.valid h.built.plain
    exact ⟨x, hx, hscoped, fun s types => hwalk _ (h.returns_visitor s types)⟩

/-- Visitors that run joined operations one after the other, and that do not come to the end of operations of which
one returns. -/
structure Sequential {ε σ : Type} (v : Shape.Visitor (List Op) Operand ε σ) : Prop where
  joins : Flow.Graph.Joins v (· ++ ·)
  returns : ∀ {ops}, (∃ y, .ret y ∈ ops) → ∀ s s', v.body ops s ≠ .ok none s'

/-- A form of a whole graph is walked as a run through its blocks, with a charge for every exit that leads back,
whether chains have been merged or not. -/
lemma Whole.ends {block : Nat} {g : Flow.Graph (List Op) Operand} (h : Whole (g.setEntry block)) (config : Config) :
    ∃ x, (finished config block g).structurize = .ok x ∧
      ∀ {ε σ : Type} {v : Shape.Visitor (List Op) Operand ε σ}, Sequential v → ∀ s r,
        Run.Finishes (x.walk v ·) s r ↔ (g.setEntry block).Ends v (g.setEntry block).charges block 0 s r := by
  unfold finished
  split
  · obtain ⟨x, hx, hends⟩ := Flow.Graph.coalesce_ends h.valid h.built.plain h.built.bodied (· ++ ·)
    exact ⟨x, hx, fun hv => hends _ hv.joins (h.returns_of hv.returns)⟩
  · obtain ⟨x, hx, hends⟩ := Flow.Graph.structurize_ends h.valid h.built.plain
    exact ⟨x, hx, fun hv => hends _ (h.returns_of hv.returns)⟩

/-- How building a function ends: with a sound function, or with a refusal. -/
def Builds : EStateM.Result Error Compiler Ir.Function → Prop
  | .ok f _ => f.Sound
  | .error e _ => e.IsRefusal

/-- Whatever the memory, the address and the state of the compiler, building a function ends with a
sound function, or with an error that tells of the guest program or of the limit on blocks. -/
theorem build_sound (entry : UInt64) (mem : Memory) (c : Compiler) :
    Builds (build entry mem c) := by
  have h := discover_completes mem entry (2 * c.config.maxBlocks + 2) (regular_start [entry]) c
  rw [build_eq]
  generalize discover mem entry (2 * c.config.maxBlocks + 2) [entry] .start c = r at h ⊢
  cases r with
  | error e c' => exact h
  | ok d c' =>
    obtain ⟨hregular, -, htaken⟩ := h
    obtain ⟨g, block, hlink, hblock, hwhole⟩ :=
      hregular.whole (htaken entry List.mem_cons_self)
    obtain ⟨x, hx, hscoped, hwalk⟩ := hwhole.structurize c.config
    have hassemble : assemble c.config entry d = .ok ⟨entry, d.scratch.types, x⟩ := by
      rw [assemble_eq, hlink]
      simp only [hblock, hx]
    simp only [hassemble]
    refine ⟨rfl, fun o ho => ?_, fun s fuel m m' e herror => ?_⟩
    · have hmodule : ∃ module, Wasm.moduleOf ⟨entry, d.scratch.types, x⟩ o = .ok module :=
        Wasm.exists_moduleOf.2 ⟨ho, hscoped⟩
      obtain ⟨module, hmodule⟩ := hmodule
      exact ⟨_, Wasm.emitFunction_eq_ok.2 ⟨module, hmodule, rfl⟩⟩
    · rcases Interp.invoke_error herror with hcause | ⟨frame, hend⟩
      · cases hcause with
        | raised h => exact h
      · exact absurd hend (hwalk s _ _ _ _)

end Compiler

end Dynarec
