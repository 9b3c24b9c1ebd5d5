import Mathlib.Tactic.Lemma
import Dynarec.Interp.Basic
import Dynarec.Proofs.Run

/-!
# Effects of operations

Operations change a frame, and they reach into memory while they run. Two lists of operations have the same effect
when both is the same from every frame, whatever the host does that is asked to run other functions.
-/

namespace Dynarec.Interp

open Ir (Op BinOp Place Ty)

/-- An access to memory. -/
inductive Access where
  | load (size : AccessSize) (addr : UInt64)
  | store (size : AccessSize) (addr value : UInt64)
  deriving DecidableEq, Repr

section
variable {H : Type} (services : Services H) (types : Array Ty)

mutual

/-- The accesses that one operation tries from a frame, in order. -/
def accessesOp : Op → Frame H → List Access
  | .load size _ addr, f => [.load size (f.read addr)]
  | .store size addr value, f => [.store size (f.read addr) (f.read value)]
  | .branch cond ifTrue ifFalse, f => if f.read cond != 0 then accesses ifTrue f else accesses ifFalse f
  | _, _ => []

/-- The accesses that operations try from a frame, one after the other until one returns or fails. -/
def accesses : List Op → Frame H → List Access
  | [], _ => []
  | op :: rest, f => accessesOp op f ++
    match runOp services types op f with
    | .ok none f' => accesses rest f'
    | _ => []

end

end

/-- Operations do the same from every frame: they leave the same frame, give or fail with the same, ask the host for
the same and try the same accesses. -/
structure SameEffect (ops ops' : List Op) : Prop where
  runs : ∀ {H : Type} (services : Services H) (types : Array Ty),
    runOps services types ops = runOps services types ops'
  accesses : ∀ {H : Type} (services : Services H) (types : Array Ty),
    accesses services types ops = accesses services types ops'

namespace SameEffect

variable {ops ops' ops'' : List Op}

lemma refl (ops : List Op) : SameEffect ops ops := ⟨fun _ _ => rfl, fun _ _ => rfl⟩

lemma symm (h : SameEffect ops ops') : SameEffect ops' ops :=
  ⟨fun services types => (h.runs services types).symm, fun services types => (h.accesses services types).symm⟩

lemma trans (h : SameEffect ops ops') (h' : SameEffect ops' ops'') : SameEffect ops ops'' :=
  ⟨fun services types => (h.runs services types).trans (h'.runs services types),
    fun services types => (h.accesses services types).trans (h'.accesses services types)⟩

end SameEffect

/-- An operation writes a constant to a place, and nothing else. -/
structure Assigns (op : Op) (dst : Place) (value : UInt64) : Prop where
  runs : ∀ {H : Type} (services : Services H) (types : Array Ty) (f : Frame H),
    runOp services types op f = .ok none (f.write types dst value)
  accesses : ∀ {H : Type} (services : Services H) (types : Array Ty) (f : Frame H),
    accessesOp services types op f = []

lemma assigns_mov (width : Width) (dst : Place) (value : UInt64) :
    Assigns (.mov width dst (.imm value)) dst (value &&& width.mask) := ⟨fun _ _ _ => rfl, fun _ _ _ => rfl⟩

lemma assigns_bin (op : BinOp) (width : Width) (dst : Place) (lhs rhs : UInt64) :
    Assigns (.bin op width dst (.imm lhs) (.imm rhs)) dst (op.eval width lhs rhs) :=
  ⟨fun _ _ _ => rfl, fun _ _ _ => rfl⟩

/-- Operations that write the same constant to the same place have the same effect. -/
lemma Assigns.sameEffect {op op' : Op} {dst : Place} {value : UInt64} (h : Assigns op dst value)
    (h' : Assigns op' dst value) : SameEffect [op] [op'] where
  runs services types := by
    funext f
    simp only [runOps]
    rw [EStateM.bind_ok (h.runs services types f), EStateM.bind_ok (h'.runs services types f)]
  accesses services types := by
    funext f
    simp only [Interp.accesses, h.runs, h'.runs, h.accesses, h'.accesses]

end Dynarec.Interp
