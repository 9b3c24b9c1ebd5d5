import Dynarec.Proofs.Run

/-!
# Shapes in sequence

Shapes that are put in sequence run one after the other, however sequences are nested.
-/

namespace Dynarec.Shape

variable {B C ε σ : Type}

/-- Shapes run in two parts. -/
lemma runList_append (v : Visitor B C ε σ) (fuel : Nat) (xs ys : List (Shape B C)) (d : Nat) :
    runList v fuel (xs ++ ys) d = (do
      match ← runList v fuel xs d with
      | (.next, d) => runList v fuel ys d
      | left => return left) := by
  funext s
  induction xs generalizing d s with
  | nil => simp only [List.nil_append, runList]; rfl
  | cons x xs ih =>
    simp only [List.cons_append, runList, bind_assoc]
    cases hx : run v fuel x d s with
    | error e s₁ => rw [EStateM.bind_error hx, EStateM.bind_error hx]
    | ok r s₁ =>
      rw [EStateM.bind_ok hx, EStateM.bind_ok hx]
      obtain ⟨c, d₁⟩ := r
      cases c with
      | next => exact ih d₁ s₁
      | jump l => rfl
      | ret x => rfl

/-- A sequence of one member runs as that member. -/
lemma runList_singleton (v : Visitor B C ε σ) (fuel : Nat) (x : Shape B C) (d : Nat) :
    runList v fuel [x] d = run v fuel x d := by
  funext s
  simp only [runList]
  cases hx : run v fuel x d s with
  | error e s₁ => rw [EStateM.bind_error hx]
  | ok r s₁ =>
    rw [EStateM.bind_ok hx]
    obtain ⟨c, d₁⟩ := r
    cases c <;> rfl

/-- The members of a shape run as the shape. -/
lemma runList_members (v : Visitor B C ε σ) (fuel : Nat) (x : Shape B C) (d : Nat) :
    runList v fuel x.members d = run v fuel x d := by
  cases x <;> first
    | rfl
    | exact runList_singleton ..

/-- Joining sequences into one does not change how they run. -/
lemma runList_flatMap_members (v : Visitor B C ε σ) (fuel : Nat) (xs : List (Shape B C))
    (d : Nat) : runList v fuel (xs.flatMap members) d = runList v fuel xs d := by
  funext s
  induction xs generalizing d s with
  | nil => rfl
  | cons x xs ih =>
    rw [List.flatMap_cons, runList_append, runList_members]
    simp only [runList]
    cases hx : run v fuel x d s with
    | error e s₁ => rw [EStateM.bind_error hx, EStateM.bind_error hx]
    | ok r s₁ =>
      rw [EStateM.bind_ok hx, EStateM.bind_ok hx]
      obtain ⟨c, d₁⟩ := r
      cases c with
      | next => exact ih d₁ s₁
      | jump l => rfl
      | ret x => rfl

/-- Shapes put in sequence run one after the other. -/
lemma run_ofList (v : Visitor B C ε σ) (fuel : Nat) (xs : List (Shape B C)) (d : Nat) :
    run v fuel (ofList xs) d = runList v fuel xs d := by
  rw [← runList_flatMap_members]
  unfold ofList
  split
  · next only h => rw [h, runList_singleton]
  · rfl

end Dynarec.Shape
