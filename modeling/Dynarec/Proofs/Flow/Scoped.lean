import Dynarec.Proofs.Flow.Structurize
import Dynarec.Proofs.Shape.Parts

/-!
# Jumps have constructs to lead to

Every jump in the structured form of a graph leads to a construct around it. Placing takes the label
of a jump from the constructs that it has opened around the place, so this holds of whatever is
placed without an error.
-/

namespace Dynarec

variable {B C : Type}

namespace Flow.Graph

open Shape (Scoped ScopedAll scoped_ofList)

variable {g : Graph B C} {d : Dominance}

/-- A way of placing blocks whose jumps lead to the constructs around the place. -/
def PlacesScoped (place : List Frame → Nat → PlaceM (Shape B C)) : Prop :=
  ∀ frames n st x st', place frames n st = .ok (x, st') → x.Scoped (frames.map Frame.label)

section
variable {place : List Frame → Nat → PlaceM (Shape B C)} (hplace : PlacesScoped place)
include hplace

lemma placeTarget_scoped {frames : List Frame} {n t : Nat} {st st' : Placing} {x : Shape B C}
    (h : placeTarget d place frames n t st = .ok (x, st')) : x.Scoped (frames.map Frame.label) := by
  rcases placeTarget_eq_ok h with ⟨-, h⟩ | ⟨f, hf, -, -, -, rfl, -⟩
  · exact hplace _ _ _ _ _ h
  · rw [Scoped]
    exact List.mem_map_of_mem hf

lemma placeExit_scoped {frames : List Frame} {n : Nat} {e : Exit C} {st st' : Placing}
    {x : Shape B C} (h : placeExit d place frames n e st = .ok (x, st')) :
    x.Scoped (frames.map Frame.label) := by
  obtain ⟨next, hnext, rfl⟩ := placeExit_eq_ok h
  have hscoped := placeTarget_scoped hplace hnext
  cases e.dispatch with
  | some id =>
    rw [Option.elim_some, scoped_ofList]
    exact ⟨trivial, hscoped, trivial⟩
  | none => exact hscoped

lemma placeExits_scoped {frames : List Frame} {n : Nat} {exits : List (Exit C)} {st st' : Placing}
    {x : Shape B C} (h : placeExits d place frames n exits st = .ok (x, st')) :
    x.Scoped (frames.map Frame.label) := by
  induction exits generalizing x st' with
  | nil =>
    cases h
    exact trivial
  | cons e rest ih =>
    obtain ⟨otherwise, next, st₁, hrest, hnext, rfl⟩ := placeExits_cons_eq_ok h
    have hscoped := placeExit_scoped hplace hnext
    cases e.test with
    | some test => exact ⟨hscoped, ih hrest⟩
    | none => exact hscoped

lemma placeWithin_scoped {n : Nat} {ys : List Nat} {frames : List Frame} {st st' : Placing}
    {x : Shape B C} (h : g.placeWithin d place n ys frames st = .ok (x, st')) :
    x.Scoped (frames.map Frame.label) := by
  induction ys generalizing frames st st' x with
  | nil =>
    obtain ⟨next, hnext, rfl⟩ := placeWithin_nil_eq_ok h
    rw [scoped_ofList, Shape.scopedAll_append]
    refine ⟨?_, placeExits_scoped hplace hnext, trivial⟩
    cases g.body? n with
    | some b => exact ⟨trivial, trivial⟩
    | none => exact trivial
  | cons y rest ih =>
    obtain ⟨inner, follow, st₁, hinner, hfollow, rfl⟩ := placeWithin_cons_eq_ok h
    rw [scoped_ofList, ScopedAll, Scoped]
    exact ⟨ih hinner, hplace _ _ _ _ _ hfollow, trivial⟩

end

lemma placeTree_scoped (fuel : Nat) : PlacesScoped (g.placeTree d fuel) := by
  induction fuel with
  | zero =>
    intro frames n st x st' h
    cases h
  | succ fuel ih =>
    intro frames n st x st' h
    rcases (placeTree_succ_eq_ok h).2 with ⟨inner, hinner, rfl⟩ | h
    · rw [Scoped]
      exact placeWithin_scoped ih hinner
    · exact placeWithin_scoped ih h

/-- Every jump in the structured form of a graph leads to a construct around it. -/
theorem structurize_scoped {x : Shape B C} (h : g.structurize = .ok x) : x.Scoped [] := by
  rw [structurize_eq] at h
  obtain ⟨u, -, h⟩ := except_bind_eq_ok.mp h
  obtain ⟨d, -, h⟩ := except_bind_eq_ok.mp h
  obtain ⟨⟨y, st⟩, hplace, h⟩ := except_bind_eq_ok.mp h
  cases h
  exact placeTree_scoped _ _ _ _ _ _ hplace

end Flow.Graph

end Dynarec
