import Dynarec.Emulator
import Dynarec.Proofs.Interp.Bounds

/-!
# Serving requests

How a request is served step by step: its code is found, one level of nesting is taken, and the
code runs with one less fuel. More fuel does not change what is given unless the bound is reached.
-/

namespace Dynarec.Emulator

open Run (Below Stopped)

/-- One call deeper. -/
def deeper (m : Emulator) : Emulator := { m with host := { m.host with depth := m.host.depth + 1 } }

/-- Run a function that has been found for a request. -/
def runCode (fuel : Nat) (code : Linking.Code) : Run Error Emulator UInt64 := fun m =>
  if m.host.compiler.config.maxDepth ≤ m.host.depth then
    .error (.error (.callDepthExceeded m.host.compiler.config.maxDepth)) m
  else
    match Interp.invoke ⟨serve fuel, tick⟩ fuel code.function m.deeper with
    | .ok value m => .ok value (leave m)
    | .error e m => .error e (leave m)

lemma serve_succ (fuel : Nat) (request : Interp.Request) :
    serve (fuel + 1) request = (do runCode fuel (← resolve request)) := by
  funext m
  rw [serve]
  cases hr : resolve request m with
  | error e m₁ => exact (EStateM.bind_error hr).trans (EStateM.bind_error hr).symm
  | ok code m₁ =>
    refine (EStateM.bind_ok hr).trans (Eq.trans ?_ (EStateM.bind_ok hr).symm)
    obtain ⟨cpu, mem, compiler, depth, budget⟩ := m₁
    unfold runCode
    dsimp only
    by_cases hdepth : compiler.config.maxDepth ≤ depth
    · rw [if_pos hdepth]
      exact EStateM.bind_error (by simp only [enter, hdepth, if_true])
    · rw [if_neg hdepth]
      exact EStateM.bind_ok (by simp only [enter, hdepth, if_false]; rfl)

lemma runCode_below {fuel fuel' : Nat} (hle : fuel ≤ fuel')
    (hserve : ∀ request, Run.Below (serve fuel request) (serve fuel' request))
    (code : Linking.Code) : Run.Below (runCode fuel code) (runCode fuel' code) := by
  have h : Run.Below (Interp.invoke ⟨serve fuel, tick⟩ fuel code.function)
      (Interp.invoke ⟨serve fuel', tick⟩ fuel' code.function) :=
    Interp.invoke_below (s := ⟨serve fuel, tick⟩) (t := ⟨serve fuel', tick⟩) ⟨hserve, .refl _⟩ hle _
  intro m hm
  unfold runCode at hm ⊢
  split
  · rfl
  · next hdepth =>
    rw [if_neg hdepth] at hm
    have hstop : Stopped (Interp.invoke ⟨serve fuel, tick⟩ fuel code.function m.deeper) := by
      cases hr : Interp.invoke ⟨serve fuel, tick⟩ fuel code.function m.deeper with
      | ok value m' => trivial
      | error e m' =>
        rw [hr] at hm
        exact Run.stopped_error hm
    rw [h _ hstop]

lemma serve_below {fuel fuel' : Nat} (hle : fuel ≤ fuel') (request : Interp.Request) :
    Run.Below (serve fuel request) (serve fuel' request) := by
  induction fuel generalizing fuel' request with
  | zero => exact Run.below_outOfFuel _
  | succ fuel ih =>
    cases fuel' with
    | zero => cases hle
    | succ fuel' =>
      have hle' := Nat.le_of_succ_le_succ hle
      rw [serve_succ, serve_succ]
      exact (Below.refl _).bind (runCode_below hle' (ih hle'))

lemma execute_below {fuel fuel' : Nat} (hle : fuel ≤ fuel') (entry : UInt64) :
    Run.Below (execute fuel entry) (execute fuel' entry) := by
  rintro ⟨cpu, mem, compiler, depth, budget⟩ h
  exact serve_below hle (.jump entry) _ h

end Dynarec.Emulator
