import Dynarec.Interp.Basic
import Dynarec.Proofs.Shape.Congruence

/-!
# Relations that functions keep

A relation that is kept step by step holds of two runs of the same operations when it holds of the
steps that operations take on frames and of what the two hosts do. So it holds of the functions that
are made of them.
-/

namespace Dynarec.Interp

open Ir (Op Operand Ty)

variable {H H' : Type}

/-- A relation holds of the steps that operations take under two hosts. -/
structure Related (K : Run.Congruence Error (Frame H) (Frame H')) (types : Array Ty)
    (s : Services H) (t : Services H') : Prop where
  read (x : Operand) : K.Rel (read x) (read x)
  write (place : Ir.Place) (value : UInt64) :
    K.Rel (write types place value) (write types place value)
  load (addr : UInt64) (size : AccessSize) : K.Rel (load addr size) (load addr size)
  store (addr : UInt64) (size : AccessSize) (value : UInt64) :
    K.Rel (store addr size value) (store addr size value)
  request (r : Request) : K.Rel (onMachine (s.request r)) (onMachine (t.request r))

section

variable {K : Run.Congruence Error (Frame H) (Frame H')} {types : Array Ty} {s : Services H}
  {t : Services H'}

/-- What most operations end with: a value is written, and the function goes on. -/
lemma writeNone_rel (h : Related K types s t) (place : Ir.Place) (value : UInt64) :
    K.Rel (do write types place value; return none : Run Error (Frame H) (Option UInt64))
      (do write types place value; return none) :=
  K.bind (h.write place value) fun _ => K.pure _

mutual

lemma runOp_rel (h : Related K types s t) : (o : Op) → K.Rel (runOp s types o) (runOp t types o)
  | .mov width dst src => by
    unfold runOp
    exact K.bind (h.read src) fun _ => writeNone_rel h _ _
  | .bin op width dst lhs rhs => by
    unfold runOp
    exact K.bind (h.read lhs) fun _ => K.bind (h.read rhs) fun _ => writeNone_rel h _ _
  | .cmp op width dst lhs rhs => by
    unfold runOp
    exact K.bind (h.read lhs) fun _ => K.bind (h.read rhs) fun _ => writeNone_rel h _ _
  | .select dst cond ifTrue ifFalse => by
    unfold runOp
    apply K.bind (h.read cond)
    intro c
    by_cases hc : (c != 0) = true
    · simp only [hc, if_true]
      exact K.bind (h.read ifTrue) fun _ => writeNone_rel h _ _
    · simp only [hc]
      exact K.bind (h.read ifFalse) fun _ => writeNone_rel h _ _
  | .extend bits signed dst src => by
    unfold runOp
    exact K.bind (h.read src) fun _ => writeNone_rel h _ _
  | .load size dst addr => by
    unfold runOp
    exact K.bind (h.read addr) fun _ => K.bind (h.load _ _) fun _ => writeNone_rel h _ _
  | .store size addr value => by
    unfold runOp
    exact K.bind (h.read addr) fun _ => K.bind (h.read value) fun _ =>
      K.bind (h.store _ _ _) fun _ => K.pure _
  | .call dst slot => by
    unfold runOp
    exact K.bind (h.request _) fun _ => writeNone_rel h _ _
  | .jump dst target => by
    unfold runOp
    exact K.bind (h.read target) fun _ => K.bind (h.request _) fun _ => writeNone_rel h _ _
  | .branch cond ifTrue ifFalse => by
    unfold runOp
    apply K.bind (h.read cond)
    intro c
    split
    · exact runOps_rel h ifTrue
    · exact runOps_rel h ifFalse
  | .ret value => by
    unfold runOp
    exact K.bind (h.read value) fun _ => K.pure _

lemma runOps_rel (h : Related K types s t) :
    (os : List Op) → K.Rel (runOps s types os) (runOps t types os)
  | [] => by
    unfold runOps
    exact K.pure _
  | o :: rest => by
    unfold runOps
    apply K.bind (runOp_rel h o)
    intro r
    cases r with
    | some value => exact K.pure _
    | none => exact runOps_rel h rest

end

end

end Dynarec.Interp
