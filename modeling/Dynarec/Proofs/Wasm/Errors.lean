import Mathlib.Tactic.Common
import Dynarec.Wasm.Codegen

/-!
# Errors of emitting modules

A function is refused a module for the limits of the memory, for a jump that leads nowhere, or for
want of an import, and for nothing else.
-/

namespace Dynarec.Wasm

open Ir (Op Operand)

/-- An error of emitting a module. -/
def OfEmitting : Error → Prop
  | .backend (.minPages ..) | .backend (.maxPages ..) | .backend (.strayBranch _)
  | .backend (.notImported _) => True
  | _ => False

/-- What emitting gives, if it is an error, is one of emitting. -/
def Candid {α : Type} (result : Except Error α) : Prop := ∀ e, result = .error e → OfEmitting e

section
variable {α β : Type}

lemma candid_ok (a : α) : Candid (.ok a) := nofun

lemma candid_error {e : Error} (h : OfEmitting e) : Candid (.error e : Except Error α) := by
  rintro e' ⟨⟩
  exact h

lemma Candid.bind {x : Except Error α} {f : α → Except Error β} (hx : Candid x)
    (hf : ∀ a, Candid (f a)) : Candid (x >>= f) := by
  cases x with
  | ok a => exact hf a
  | error e => exact candid_error (hx e rfl)

end

lemma Options.validate_candid (o : Options) : Candid o.validate := by
  unfold Options.validate
  by_cases hmin : Options.maxPages < o.memoryMin
  · rw [if_pos hmin]
    exact candid_error (e := .backend (.minPages o.memoryMin Options.maxPages)) trivial
  · rw [if_neg hmin]
    split
    · split
      · exact candid_error trivial
      · exact candid_ok _
    · exact candid_ok _

namespace Codegen

variable {c : Context}

lemma importIndex_candid (i : Import) : Candid (c.importIndex i) := by
  unfold Context.importIndex
  split
  · exact candid_ok _
  · exact candid_error trivial

mutual

lemma op_candid : (o : Op) → Candid (op c o)
  | .call dst slot => by
    rw [op]
    exact (importIndex_candid _).bind fun _ => candid_ok _
  | .jump dst target => by
    rw [op]
    exact (importIndex_candid _).bind fun _ => candid_ok _
  | .branch cond yes no => by
    rw [op]
    apply (ops_candid yes).bind
    intro _
    cases no with
    | nil => exact candid_ok _
    | cons o rest => exact (ops_candid (o :: rest)).bind fun _ => candid_ok _
  | .mov .. | .bin .. | .cmp .. | .select .. | .extend .. | .load .. | .store .. | .ret _ => by
    rw [op]
    exact candid_ok _

lemma ops_candid : (os : List Op) → Candid (ops c os)
  | [] => by
    rw [ops]
    exact candid_ok _
  | o :: rest => by
    rw [ops]
    exact (op_candid o).bind fun _ => (ops_candid rest).bind fun _ => candid_ok _

end

mutual

lemma shape_candid : (frames : List Enclosing) → (s : Shape (List Op) Operand) →
    Candid (shape c frames s)
  | frames, .seq items => by
    rw [shape]
    exact shapes_candid frames items
  | _, .body b => by
    rw [shape]
    exact ops_candid b
  | frames, .block label inner => by
    rw [shape]
    exact (shape_candid _ inner).bind fun _ => candid_ok _
  | frames, .loop label inner => by
    rw [shape]
    exact (shape_candid _ inner).bind fun _ => candid_ok _
  | frames, .cond t yes no => by
    rw [shape]
    apply (shape_candid _ yes).bind
    intro _
    split
    · exact candid_ok _
    · exact (shape_candid _ no).bind fun _ => candid_ok _
  | frames, .br label => by
    rw [shape, jump]
    split
    · exact candid_error trivial
    · exact candid_ok _
  | _, .setDispatch id => by
    rw [shape]
    exact candid_ok _

lemma shapes_candid : (frames : List Enclosing) → (items : List (Shape (List Op) Operand)) →
    Candid (shapes c frames items)
  | _, [] => by
    rw [shapes]
    exact candid_ok _
  | frames, s :: rest => by
    rw [shapes]
    exact (shape_candid frames s).bind fun _ => (shapes_candid frames rest).bind fun _ =>
      candid_ok _

end

end Codegen

/-- The errors of emitting a module are those of the limits, of jumps and of imports. -/
theorem emitFunction_candid (f : Ir.Function) (o : Options) : Candid (emitFunction f o) := by
  have hmodule : Candid (moduleOf f o) := by
    unfold moduleOf
    exact o.validate_candid.bind fun _ => (Codegen.shape_candid _ _).bind fun _ => candid_ok _
  unfold emitFunction
  cases h : moduleOf f o with
  | ok m => exact candid_ok _
  | error e => exact candid_error (hmodule e h)

end Dynarec.Wasm
