import Dynarec.Proofs.Ir.Parts
import Dynarec.Proofs.Shape.Map

/-!
# Moving calls to other slots

The slots that operations call through are the only trace that the slot table leaves in compiled
code. `relocate` replaces them.
-/

namespace Dynarec.Ir

mutual

/-- An operation with the slots of its calls replaced. -/
def Op.relocate (ρ : Nat → Nat) : Op → Op
  | .call dst slot => .call dst (ρ slot)
  | .branch cond yes no => .branch cond (Op.relocateAll ρ yes) (Op.relocateAll ρ no)
  | op => op

/-- Operations with the slots of their calls replaced. -/
def Op.relocateAll (ρ : Nat → Nat) : List Op → List Op
  | [] => []
  | op :: rest => op.relocate ρ :: Op.relocateAll ρ rest

end

/-- A function with the slots of its calls replaced. -/
def Function.relocate (ρ : Nat → Nat) (f : Function) : Function :=
  { f with body := f.body.map (Op.relocateAll ρ) id }

variable {ρ : Nat → Nat}

@[simp] lemma relocateAll_nil : Op.relocateAll ρ [] = [] := by rw [Op.relocateAll]

@[simp] lemma relocateAll_cons (op : Op) (rest : List Op) :
    Op.relocateAll ρ (op :: rest) = op.relocate ρ :: Op.relocateAll ρ rest := by
  rw [Op.relocateAll]

@[simp] lemma relocateAll_append (first rest : List Op) :
    Op.relocateAll ρ (first ++ rest) = Op.relocateAll ρ first ++ Op.relocateAll ρ rest := by
  induction first with
  | nil => rw [relocateAll_nil, List.nil_append, List.nil_append]
  | cons op first ih => rw [List.cons_append, relocateAll_cons, relocateAll_cons, ih,
      List.cons_append]

mutual

/-- Operations that do not call stay as they are. -/
lemma relocate_of_any : {op : Op} → op.any Op.isCall = false → op.relocate ρ = op
  | .branch cond yes no, h => by
    simp only [Op.any, Bool.or_eq_false_iff] at h
    rw [Op.relocate, relocateAll_of_anyOf h.1.2, relocateAll_of_anyOf h.2]
  | .call .., h => by simp [Op.any, Op.isCall] at h
  | .mov .., _ | .bin .., _ | .cmp .., _ | .select .., _ | .extend .., _ | .load .., _
  | .store .., _ | .jump .., _ | .ret _, _ => by rw [Op.relocate] <;> simp

lemma relocateAll_of_anyOf : {ops : List Op} → Op.anyOf Op.isCall ops = false →
    Op.relocateAll ρ ops = ops
  | [], _ => relocateAll_nil
  | op :: rest, h => by
    simp only [Op.anyOf, Bool.or_eq_false_iff] at h
    rw [relocateAll_cons, relocate_of_any h.1, relocateAll_of_anyOf h.2]

end

mutual

@[simp] lemma relocate_id : (op : Op) → op.relocate id = op
  | .branch cond yes no => by rw [Op.relocate, relocateAll_id yes, relocateAll_id no]
  | .mov .. | .bin .. | .cmp .. | .select .. | .extend .. | .load .. | .store .. | .call ..
  | .jump .. | .ret _ => by rw [Op.relocate] <;> simp

@[simp] lemma relocateAll_id : (ops : List Op) → Op.relocateAll id ops = ops
  | [] => relocateAll_nil
  | op :: rest => by rw [relocateAll_cons, relocate_id op, relocateAll_id rest]

end

@[simp] lemma Function.relocate_id (f : Function) : f.relocate id = f := by
  have hops : Op.relocateAll id = id := funext relocateAll_id
  rw [Function.relocate, hops, Shape.map_id]

end Dynarec.Ir
