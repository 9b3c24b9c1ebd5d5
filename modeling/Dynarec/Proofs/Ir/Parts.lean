import Mathlib.Algebra.Group.Nat.Defs
import Mathlib.Tactic.Common
import Dynarec.Proofs.Shape.Parts
import Dynarec.Wasm.Codegen

/-!
# Parts of operations

The operations inside operations, and which scratch locals are referred to.
-/

namespace Dynarec.Ir

/-- An operation is one of some operations or inside one of them. -/
inductive Op.Within (op : Op) : List Op → Prop where
  | head {rest : List Op} : Within op (op :: rest)
  | tail {first : Op} {rest : List Op} : Within op rest → Within op (first :: rest)
  | ifTrue {cond : Operand} {yes no rest : List Op} : Within op yes →
    Within op (.branch cond yes no :: rest)
  | ifFalse {cond : Operand} {yes no rest : List Op} : Within op no →
    Within op (.branch cond yes no :: rest)

lemma Op.Within.of_head {i o : Op} (h : i.Within [o]) (rest : List Op) : i.Within (o :: rest) := by
  cases h with
  | head => exact .head
  | tail h => cases h
  | ifTrue h => exact .ifTrue h
  | ifFalse h => exact .ifFalse h

mutual

lemma Op.any_iff {p : Op → Bool} : {op : Op} →
    op.any p = true ↔ ∃ inner, inner.Within [op] ∧ p inner = true
  | .branch cond yes no => by
    rw [Op.any, Bool.or_eq_true, Bool.or_eq_true, Op.anyOf_iff, Op.anyOf_iff]
    constructor
    · rintro ((h | ⟨i, hi, h⟩) | ⟨i, hi, h⟩)
      · exact ⟨_, .head, h⟩
      · exact ⟨i, .ifTrue hi, h⟩
      · exact ⟨i, .ifFalse hi, h⟩
    · rintro ⟨i, hi, h⟩
      cases hi with
      | head => exact .inl (.inl h)
      | tail hi => cases hi
      | ifTrue hi => exact .inl (.inr ⟨i, hi, h⟩)
      | ifFalse hi => exact .inr ⟨i, hi, h⟩
  | .mov .. | .bin .. | .cmp .. | .select .. | .extend .. | .load .. | .store .. | .call ..
  | .jump .. | .ret .. => by
    rw [Op.any]
    refine ⟨fun h => ⟨_, .head, h⟩, fun ⟨i, hi, h⟩ => ?_⟩
    cases hi with
    | head => exact h
    | tail hi => cases hi
    all_goals exact nofun

lemma Op.anyOf_iff {p : Op → Bool} : {ops : List Op} →
    Op.anyOf p ops = true ↔ ∃ inner, inner.Within ops ∧ p inner = true
  | [] => by
    rw [Op.anyOf]
    exact ⟨nofun, fun ⟨_, h, _⟩ => by cases h⟩
  | op :: rest => by
    rw [Op.anyOf, Bool.or_eq_true, Op.any_iff, Op.anyOf_iff]
    constructor
    · rintro (⟨i, hi, h⟩ | ⟨i, hi, h⟩)
      · refine ⟨i, ?_, h⟩
        cases hi with
        | head => exact .head
        | tail hi => cases hi
        | ifTrue hi => exact .ifTrue hi
        | ifFalse hi => exact .ifFalse hi
      · exact ⟨i, .tail hi, h⟩
    · rintro ⟨i, hi, h⟩
      cases hi with
      | head => exact .inl ⟨_, .head, h⟩
      | tail hi => exact .inr ⟨i, hi, h⟩
      | ifTrue hi => exact .inl ⟨i, .ifTrue hi, h⟩
      | ifFalse hi => exact .inl ⟨i, .ifFalse hi, h⟩

end

/-- A place that is a scratch local is one of the first `n` locals. -/
def Place.Declared (n : Nat) : Place → Prop
  | .scratch l => l.id < n
  | _ => True

/-- An operand refers to the first `n` scratch locals only. -/
def Operand.Declared (n : Nat) : Operand → Prop
  | .imm _ => True
  | .place p => p.Declared n

mutual

/-- An operation refers to the first `n` scratch locals only. -/
def Op.Declared (n : Nat) : Op → Prop
  | .mov _ dst src => dst.Declared n ∧ src.Declared n
  | .bin _ _ dst lhs rhs => dst.Declared n ∧ lhs.Declared n ∧ rhs.Declared n
  | .cmp _ _ dst lhs rhs => dst.Declared n ∧ lhs.Declared n ∧ rhs.Declared n
  | .select dst cond yes no => dst.Declared n ∧ cond.Declared n ∧ yes.Declared n ∧ no.Declared n
  | .extend _ _ dst src => dst.Declared n ∧ src.Declared n
  | .load _ dst addr => dst.Declared n ∧ addr.Declared n
  | .store _ addr value => addr.Declared n ∧ value.Declared n
  | .call dst _ => dst.Declared n
  | .jump dst target => dst.Declared n ∧ target.Declared n
  | .branch cond yes no => cond.Declared n ∧ Op.AllDeclared n yes ∧ Op.AllDeclared n no
  | .ret value => value.Declared n

/-- Operations refer to the first `n` scratch locals only. -/
def Op.AllDeclared (n : Nat) : List Op → Prop
  | [] => True
  | op :: rest => op.Declared n ∧ Op.AllDeclared n rest

end

/-- The numbers in an operation are such as its fields can have: the bits that are extended are some of those of
a word, and a slot has 32 bits. -/
def Op.Encoded : Op → Prop
  | .extend bits _ _ _ => 0 < bits ∧ bits ≤ 64
  | .call _ slot => slot < 2 ^ 32
  | _ => True

/-- A function refers to locals that it has. -/
def Function.Declared (f : Function) : Prop :=
  f.body.All (Op.AllDeclared f.locals.size) (Operand.Declared f.locals.size)

end Dynarec.Ir
