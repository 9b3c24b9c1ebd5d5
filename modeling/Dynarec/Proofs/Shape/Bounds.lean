import Mathlib.Tactic.Common
import Dynarec.Proofs.Shape.Congruence

/-!
# Bounds of walks

More fuel does not change a walk that has not reached its bound. A walk whose visitor stops, and
for which every jump back to the start of a loop makes a measure smaller, does not reach its bound
when the fuel exceeds the measure: between two jumps back a walk goes through each part of its
shape at most once.
-/

namespace Dynarec.Shape

open Run (Below Steady Shrinks Stopped)

variable {B C ε σ : Type}

/-- One visitor does what another one does, unless the first one reaches its bound. -/
structure Visitor.Below (v w : Visitor B C ε σ) : Prop where
  body : ∀ b, Run.Below (v.body b) (w.body b)
  test : ∀ c, Run.Below (v.test c) (w.test c)
  backEdge : Run.Below v.backEdge w.backEdge

lemma loops_below {v w : Visitor B C ε σ} (hback : Run.Below v.backEdge w.backEdge)
    {fuel fuel' : Nat} (hle : fuel ≤ fuel') : LoopsRel .below v w fuel fuel' := by
  intro label inner inner' hinner
  induction fuel generalizing fuel' with
  | zero => exact fun d => Run.below_outOfFuel _
  | succ fuel ih =>
    cases fuel' with
    | zero => cases hle
    | succ fuel' => exact round_rel .below hback hinner (ih (Nat.le_of_succ_le_succ hle))

lemma walk_below {v w : Visitor B C ε σ} (hv : v.Below w) {fuel fuel' : Nat} (hle : fuel ≤ fuel')
    (x : Shape B C) : Run.Below (x.walk v fuel) (x.walk w fuel') :=
  walk_rel (loops_below hv.backEdge hle) (all_of_forall hv.body hv.test x)

/-! ### Walks that stop -/

/-- A visitor whose bodies and tests stop and for which every jump back makes a measure smaller. -/
structure Visitor.Bounded (P : σ → Prop) (μ : σ → Nat) (v : Visitor B C ε σ) : Prop where
  body : ∀ b, Steady P μ (v.body b)
  test : ∀ c, Steady P μ (v.test c)
  backEdge : Shrinks P μ v.backEdge

section
variable {P : σ → Prop} {μ : σ → Nat} {fuel : Nat}

lemma iterate_steady {back : Run ε σ Unit} {label : Nat} {inner : Nat → Run ε σ (Control × Nat)}
    (hback : Shrinks P μ back) (hinner : ∀ d, Steady P μ (inner d))
    (d : Nat) : Steady (fun s => P s ∧ μ s < fuel) μ (iterate back label inner fuel d) := by
  induction fuel generalizing d with
  | zero => exact fun s hs => absurd hs.2 (Nat.not_lt_zero _)
  | succ fuel ih =>
    intro s hs
    obtain ⟨hstop, hok⟩ := hinner d s hs.1
    unfold iterate
    cases h : inner d s with
    | error e s₁ =>
      rw [EStateM.bind_error h]
      rw [h] at hstop
      exact ⟨Run.stopped_error hstop, fun a s' ha => by cases ha⟩
    | ok r s₁ =>
      obtain ⟨c, d'⟩ := r
      obtain ⟨hs₁, hle⟩ := hok _ _ h
      rw [EStateM.bind_ok h]
      have hlt := hs.2
      by_cases hc : c = .jump label
      · simp only [hc, if_true]
        obtain ⟨hstop', hok'⟩ := hback s₁ hs₁
        cases hb : back s₁ with
        | error e s₂ =>
          rw [EStateM.bind_error hb]
          rw [hb] at hstop'
          exact ⟨Run.stopped_error hstop', fun a s' ha => by cases ha⟩
        | ok u s₂ =>
          -- the jump back pays for the round to come
          obtain ⟨hs₂, hless⟩ := hok' _ _ hb
          rw [EStateM.bind_ok hb]
          obtain ⟨hstop₂, hok₂⟩ := ih d' s₂ ⟨hs₂, by omega⟩
          refine ⟨hstop₂, fun a s' ha => ?_⟩
          obtain ⟨⟨hP, hfuel⟩, hle'⟩ := hok₂ a s' ha
          exact ⟨⟨hP, by omega⟩, by omega⟩
      · simp only [hc, if_false]
        refine ⟨trivial, fun a s' ha => ?_⟩
        cases ha
        exact ⟨⟨hs₁, by omega⟩, hle⟩

theorem walk_steady {v : Visitor B C ε σ} (hv : v.Bounded P μ) (hfuel : ∀ s, P s → μ s < fuel)
    (x : Shape B C) : Steady P μ (x.walk v fuel) := by
  have hloops : LoopsRel (.steady P μ) v v fuel fuel := by
    intro label inner _ hinner d s hs
    obtain ⟨hstop, hok⟩ := iterate_steady hv.backEdge hinner d s ⟨hs, hfuel s hs⟩
    exact ⟨hstop, fun a s' ha => ⟨(hok a s' ha).1.1, (hok a s' ha).2⟩⟩
  exact walk_rel hloops (all_of_forall hv.body hv.test x)

end

end Dynarec.Shape
