import Mathlib.Tactic.Common
import Dynarec.Ir.Basic

/-!
# Operations that differ in their scratch locals

The same instruction is compiled to operations on other scratch locals depending on which ones are
free. Two lists of operations are alike when they differ only in their scratch locals and every
scratch local that is read has been written before, on both sides by the same operation. Which
locals hold the same at a point is a matching; a write takes every other match of the two locals
that it writes away.
-/

namespace Dynarec.Ir

/-- Which scratch locals on one side hold what which ones on the other side do. -/
abbrev Matching : Type := Local → Local → Prop

variable {T T' : Array Ty} {D D' D₁ D₂ : Matching}

/-- Operands that are equal or are matched scratch locals. -/
inductive Operand.Alike (D : Matching) : Operand → Operand → Prop where
  | imm (value : UInt64) : Alike D (.imm value) (.imm value)
  | place {p : Place} : (∀ l, p ≠ .scratch l) → Alike D (.place p) (.place p)
  | scratch {l l' : Local} : D l l' → Alike D (.place (.scratch l)) (.place (.scratch l'))

lemma Operand.Alike.mono {x x' : Operand} (h : x.Alike D x') (hD : ∀ l l', D l l' → D' l l') :
    x.Alike D' x' := by
  cases h with
  | imm value => exact .imm value
  | place hp => exact .place hp
  | scratch hl => exact .scratch (hD _ _ hl)

/-- Places that are equal or are scratch locals of one type. -/
inductive Place.Alike (T T' : Array Ty) : Place → Place → Prop where
  | place {p : Place} : (∀ l, p ≠ .scratch l) → Alike T T' p p
  | scratch {l l' : Local} {ty : Ty} : T[l.id]? = some ty → T'[l'.id]? = some ty →
    Alike T T' (.scratch l) (.scratch l')

/-- The matching after a write. -/
def Matching.write (D : Matching) : Place → Place → Matching
  | .scratch l, .scratch l' => fun a b => (a = l ∧ b = l') ∨ (a ≠ l ∧ b ≠ l' ∧ D a b)
  | _, _ => D

lemma Matching.write_place {p : Place} (hp : ∀ l, p ≠ .scratch l) : D.write p p = D := by
  cases p with
  | scratch l => exact absurd rfl (hp l)
  | _ => rfl

/-- Operations that write a place each from operands that are alike. -/
inductive Op.Writes (D : Matching) (dst dst' : Place) : Op → Op → Prop where
  | mov {width : Width} {x x' : Operand} : x.Alike D x' →
    Writes D dst dst' (.mov width dst x) (.mov width dst' x')
  | bin {op : BinOp} {width : Width} {x x' y y' : Operand} : x.Alike D x' → y.Alike D y' →
    Writes D dst dst' (.bin op width dst x y) (.bin op width dst' x' y')
  | cmp {op : CmpOp} {width : Width} {x x' y y' : Operand} : x.Alike D x' → y.Alike D y' →
    Writes D dst dst' (.cmp op width dst x y) (.cmp op width dst' x' y')
  | select {c c' x x' y y' : Operand} : c.Alike D c' → x.Alike D x' → y.Alike D y' →
    Writes D dst dst' (.select dst c x y) (.select dst' c' x' y')
  | extend {bits : Nat} {signed : Bool} {x x' : Operand} : x.Alike D x' →
    Writes D dst dst' (.extend bits signed dst x) (.extend bits signed dst' x')
  | load {size : AccessSize} {x x' : Operand} : x.Alike D x' →
    Writes D dst dst' (.load size dst x) (.load size dst' x')
  | call {slot : Nat} : Writes D dst dst' (.call dst slot) (.call dst' slot)
  | jump {x x' : Operand} : x.Alike D x' → Writes D dst dst' (.jump dst x) (.jump dst' x')

lemma Op.Writes.mono {dst dst' : Place} {op op' : Op} (h : op.Writes D dst dst' op')
    (hD : ∀ l l', D l l' → D' l l') : op.Writes D' dst dst' op' := by
  cases h with
  | mov hx => exact .mov (hx.mono hD)
  | bin hx hy => exact .bin (hx.mono hD) (hy.mono hD)
  | cmp hx hy => exact .cmp (hx.mono hD) (hy.mono hD)
  | select hc hx hy => exact .select (hc.mono hD) (hx.mono hD) (hy.mono hD)
  | extend hx => exact .extend (hx.mono hD)
  | load hx => exact .load (hx.mono hD)
  | call => exact .call
  | jump hx => exact .jump (hx.mono hD)

/-- Operations that are alike, with the matching after them. The only operation with operations
inside is the one that returns unless a call came back to where it should. -/
inductive Op.Alike (T T' : Array Ty) (D : Matching) : Op → Op → Matching → Prop where
  | write {dst dst' : Place} {op op' : Op} : op.Writes D dst dst' op' → dst.Alike T T' dst' →
    Alike T T' D op op' (D.write dst dst')
  | store {size : AccessSize} {a a' x x' : Operand} : a.Alike D a' → x.Alike D x' →
    Alike T T' D (.store size a x) (.store size a' x') D
  | leave {c c' x x' : Operand} : c.Alike D c' → x.Alike D x' →
    Alike T T' D (.branch c [.ret x] []) (.branch c' [.ret x'] []) D
  | ret {x x' : Operand} : x.Alike D x' → Alike T T' D (.ret x) (.ret x') D

/-- Lists of operations that are alike, with the matching after them. -/
inductive Op.AllAlike (T T' : Array Ty) : Matching → List Op → List Op → Matching → Prop where
  | nil {D : Matching} : AllAlike T T' D [] [] D
  | cons {D D₁ D₂ : Matching} {op op' : Op} {ops ops' : List Op} : op.Alike T T' D op' D₁ →
    AllAlike T T' D₁ ops ops' D₂ → AllAlike T T' D (op :: ops) (op' :: ops') D₂

namespace Op

lemma AllAlike.append {xs xs' ys ys' : List Op} (h : AllAlike T T' D xs xs' D₁)
    (h' : AllAlike T T' D₁ ys ys' D₂) : AllAlike T T' D (xs ++ ys) (xs' ++ ys') D₂ := by
  induction h with
  | nil => exact h'
  | cons hop _ ih => exact .cons hop (ih h')

lemma AllAlike.concat {xs xs' : List Op} {op op' : Op} (h : AllAlike T T' D xs xs' D₁)
    (hop : op.Alike T T' D₁ op' D₂) : AllAlike T T' D (xs ++ [op]) (xs' ++ [op']) D₂ :=
  h.append (.cons hop .nil)

/-- More locals may be declared. -/
lemma AllAlike.types {U U' : Array Ty} {xs xs' : List Op} (h : AllAlike T T' D xs xs' D₁)
    (hT : ∀ (i : Nat) ty, T[i]? = some ty → U[i]? = some ty)
    (hT' : ∀ (i : Nat) ty, T'[i]? = some ty → U'[i]? = some ty) : AllAlike U U' D xs xs' D₁ := by
  induction h with
  | nil => exact .nil
  | cons hop _ ih =>
    refine .cons ?_ ih
    cases hop with
    | write hw hd =>
      refine .write hw ?_
      cases hd with
      | place hp => exact .place hp
      | scratch hl hl' => exact .scratch (hT _ _ hl) (hT' _ _ hl')
    | store ha hx => exact .store ha hx
    | leave hc hx => exact .leave hc hx
    | ret hx => exact .ret hx

/-- Whether an operation neither runs another function nor leaves its own. -/
def isPlain : Op → Bool
  | .call .. | .jump .. | .branch .. | .ret _ => false
  | _ => true

/-- Operations that are alike are plain alike. -/
lemma Alike.isPlain {op op' : Op} (h : op.Alike T T' D op' D₁) : op.isPlain = op'.isPlain := by
  cases h with
  | write hw _ => cases hw <;> rfl
  | _ => rfl

lemma AllAlike.isPlain {xs xs' : List Op} (h : AllAlike T T' D xs xs' D₁) :
    xs.all Op.isPlain = xs'.all Op.isPlain := by
  induction h with
  | nil => rfl
  | cons hop _ ih => rw [List.all_cons, List.all_cons, hop.isPlain, ih]

end Op

end Dynarec.Ir
