import Dynarec.Proofs.Lockstep
import Dynarec.Proofs.Shape.Congruence

/-!
# Walks in lockstep

Walking a mapped shape is walking the shape itself with a visitor that maps first. Two visitors whose
bodies and tests go the same way walk a shape the same way.
-/

namespace Dynarec.Shape

open Run (Lockstep Maintains)

variable {B B' C C' ε σ τ : Type}

/-- A visitor that maps bodies and conditions first. -/
def Visitor.comap (v : Visitor B' C' ε σ) (f : B → B') (h : C → C') : Visitor B C ε σ where
  body b := v.body (f b)
  test c := v.test (h c)
  backEdge := v.backEdge

mutual

lemma run_map (v : Visitor B' C' ε σ) (f : B → B') (h : C → C') (fuel : Nat) :
    (x : Shape B C) → (d : Nat) → (x.map f h).run v fuel d = x.run (v.comap f h) fuel d
  | .seq items, d => by
    rw [map, run, run]
    exact runList_map v f h fuel items d
  | .body b, d => by
    rw [map, run, run]
    rfl
  | .block label inner, d => by rw [map, run, run, run_map v f h fuel inner d]
  | .loop label inner, d => by
    have hinner := funext (run_map v f h fuel inner)
    rw [map, run, run, hinner]
    rfl
  | .cond (.cond c) yes no, d => by
    rw [map, Test.map, run, run, run_map v f h fuel yes d, run_map v f h fuel no d]
    rfl
  | .cond (.dispatchIs id) yes no, d => by
    rw [map, Test.map, run, run, run_map v f h fuel yes d, run_map v f h fuel no d]
  | .br label, d => by rw [map, run, run]
  | .setDispatch id, d => by rw [map, run, run]

lemma runList_map (v : Visitor B' C' ε σ) (f : B → B') (h : C → C') (fuel : Nat) :
    (items : List (Shape B C)) → (d : Nat) →
      runList v fuel (mapAll f h items) d = runList (v.comap f h) fuel items d
  | [], d => by rw [mapAll, runList, runList]
  | x :: rest, d => by
    have hrest := funext (runList_map v f h fuel rest)
    rw [mapAll, runList, runList, run_map v f h fuel x d]
    congr 1
    funext ⟨c, d'⟩
    cases c with
    | next => exact congrFun hrest d'
    | jump label => rfl
    | ret value => rfl

end

lemma walk_map (v : Visitor B' C' ε σ) (f : B → B') (h : C → C') (fuel : Nat) (x : Shape B C) :
    (x.map f h).walk v fuel = x.walk (v.comap f h) fuel := by
  rw [walk, walk, run_map]

section
variable {good : σ → Prop} {R : σ → τ → Prop} {E : Halt ε → Prop} {fuel : Nat}

variable {v : Visitor B C ε σ} {w : Visitor B C ε τ}

/-- Visitors whose bodies, tests and jumps back go the same way walk a shape the same way. -/
lemma walk_lockstep (hfuel : E .outOfFuel) (hback : Lockstep good R E v.backEdge w.backEdge)
    {x : Shape B C} (h : x.All (fun b => Lockstep good R E (v.body b) (w.body b))
      (fun c => Lockstep good R E (v.test c) (w.test c))) :
    Lockstep good R E (x.walk v fuel) (x.walk w fuel) := by
  have hloops : LoopsRel (.lockstep good R E) v w fuel fuel := fun label inner inner' hinner =>
    iterate_rel _ (Run.lockstep_throw hfuel) hback hinner
  exact walk_rel hloops h

end

/-! ### What a walk maintains -/

section
variable {P : σ → Prop}

/-- A loop maintains what its inside and jumps back maintain. -/
lemma maintains_iterate {back : Run ε σ Unit} {label : Nat} {inner : Nat → Run ε σ (Control × Nat)}
    (hback : Maintains P back) (hinner : ∀ d, Maintains P (inner d)) {fuel : Nat} (d : Nat) :
    Maintains P (iterate back label inner fuel d) := by
  have h : (Run.Congruence.maintains P).Rel (iterate back label inner fuel d)
      (iterate back label inner fuel d) := iterate_rel _ (fun _ h => h) hback hinner d
  exact h

/-- A walk maintains what its visitor maintains. -/
lemma maintains_walk {v : Visitor B C ε σ}
    (hbody : ∀ b, Maintains P (v.body b)) (htest : ∀ c, Maintains P (v.test c))
    (hback : Maintains P v.backEdge) (fuel : Nat) (x : Shape B C) :
    Maintains P (x.walk v fuel) := by
  have hloops : LoopsRel (.maintains P) v v fuel fuel := fun label inner _ hinner =>
    maintains_iterate hback hinner
  exact walk_rel hloops (all_of_forall hbody htest x)

end

end Dynarec.Shape
