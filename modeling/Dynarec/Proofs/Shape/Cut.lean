import Dynarec.Proofs.Shape.Lockstep

/-!
# Runs that are cut off

Two runs of which the first one may be cut off: some of its errors say that a limit is reached, which
the second run need not have. The second run ends as the first one does, unless the first one is cut
off, and then the state that is left is a part of the one that the second run leaves. The parts of
states are such that a state never loses a part while the second run goes on.
-/

namespace Dynarec

namespace EStateM

variable {ε σ τ α β : Type}

/-- The second of two results is the first one's, or the first one is cut off in a part of the
second. -/
inductive Outlasts (R P : σ → τ → Prop) (cut : ε → Prop) :
    EStateM.Result ε σ α → EStateM.Result ε τ α → Prop where
  | ok {a : α} {s : σ} {t : τ} : R s t → Outlasts R P cut (.ok a s) (.ok a t)
  | error {e : ε} {s : σ} {t : τ} : R s t → Outlasts R P cut (.error e s) (.error e t)
  | cut {e : ε} {s : σ} {r : EStateM.Result ε τ α} :
    cut e → P s (after r) → Outlasts R P cut (.error e s) r

/-- From related states the second computation outlasts the first one, and it keeps the parts of
states. -/
structure CutShort (R P : σ → τ → Prop) (cut : ε → Prop) (x : EStateM ε σ α) (y : EStateM ε τ α) :
    Prop where
  grows (s : σ) : Keeps (Run.Along (P s)) y
  outlasts (s : σ) (t : τ) : R s t → Outlasts R P cut (x s) (y t)

variable {R P : σ → τ → Prop} {cut : ε → Prop}

lemma cutShort_pure (a : α) : CutShort R P cut (pure a) (pure a) where
  grows _ := keeps_pure _
  outlasts _ _ h := .ok h

lemma cutShort_throw (e : ε) : CutShort R P cut (throw e : EStateM ε σ α) (throw e) where
  grows _ _ h := h
  outlasts _ _ h := .error h

/-- A computation that is cut off at once. -/
lemma cutShort_cut {e : ε} (he : cut e) (hRP : ∀ s t, R s t → P s t) {y : EStateM ε τ α}
    (hy : ∀ s, Keeps (Run.Along (P s)) y) : CutShort R P cut (throw e) y where
  grows := hy
  outlasts s t h := .cut he (hy s t (hRP s t h))

lemma CutShort.bind {x : EStateM ε σ α} {y : EStateM ε τ α} {f : α → EStateM ε σ β}
    {g : α → EStateM ε τ β}
    (hx : CutShort R P cut x y) (hf : ∀ a, CutShort R P cut (f a) (g a)) :
    CutShort R P cut (x >>= f) (y >>= g) := by
  refine ⟨fun s => (hx.grows s).bind fun a => (hf a).grows s, fun s t h => ?_⟩
  have hout := hx.outlasts s t h
  generalize hs : x s = r at hout
  generalize ht : y t = r' at hout
  cases hout with
  | @ok a s₁ t₁ h₁ =>
    rw [bind_ok hs, bind_ok ht]
    exact (hf a).outlasts s₁ t₁ h₁
  | error h₁ =>
    rw [bind_error hs, bind_error ht]
    exact .error h₁
  | @cut e s₁ r' he h₁ =>
    rw [bind_error hs]
    refine .cut he ?_
    cases r' with
    | ok a t₁ =>
      rw [bind_ok ht]
      exact (hf a).grows s₁ t₁ h₁
    | error e t₁ => rwa [bind_error ht]

end EStateM

namespace Run

/-- The fuel of two runs: it is the same, or the second run has no less and the first one may be cut
off when its fuel is used up. -/
def Enough {ε : Type} (cut : Halt ε → Prop) (fuel fuel' : Nat) : Prop :=
  fuel = fuel' ∨ fuel ≤ fuel' ∧ cut .outOfFuel

lemma Enough.of_succ {ε : Type} {cut : Halt ε → Prop} {fuel fuel' : Nat}
    (h : Enough cut (fuel + 1) (fuel' + 1)) : Enough cut fuel fuel' := by
  rcases h with h | ⟨hle, hcut⟩
  · exact .inl (Nat.succ.inj h)
  · exact .inr ⟨Nat.le_of_succ_le_succ hle, hcut⟩

/-- Outlasting is kept step by step. -/
abbrev Congruence.cutShort {ε σ τ : Type} (R P : σ → τ → Prop) (cut : Halt ε → Prop) :
    Congruence ε σ τ where
  Rel := EStateM.CutShort R P cut
  pure := EStateM.cutShort_pure
  bind := EStateM.CutShort.bind

/-- A run without fuel is outlasted by every one that keeps the parts of states. -/
lemma Enough.cutShort_zero {ε σ τ α : Type} {R P : σ → τ → Prop} {cut : Halt ε → Prop}
    {fuel' : Nat} (h : Enough cut 0 fuel') (hRP : ∀ s t, R s t → P s t) {y : Nat → Run ε τ α}
    (hzero : y 0 = throw .outOfFuel) (hy : ∀ s, Maintains (P s) (y fuel')) :
    EStateM.CutShort R P cut (throw .outOfFuel : Run ε σ α) (y fuel') := by
  rcases h with rfl | ⟨-, hcut⟩
  · rw [hzero]
    exact EStateM.cutShort_throw _
  · exact EStateM.cutShort_cut hcut hRP hy

end Run

namespace Shape

open Dynarec.EStateM (CutShort)
open Run (Maintains)

variable {B C ε σ τ : Type} {R P : σ → τ → Prop} {cut : Halt ε → Prop} {fuel fuel' : Nat}

variable {v : Visitor B C ε σ} {w : Visitor B C ε τ}

/-- Visitors of which the second one outlasts the first one. -/
structure Visitor.CutShort (R P : σ → τ → Prop) (cut : Halt ε → Prop) (v : Visitor B C ε σ)
    (w : Visitor B C ε τ) : Prop where
  body (b : B) : EStateM.CutShort R P cut (v.body b) (w.body b)
  test (c : C) : EStateM.CutShort R P cut (v.test c) (w.test c)
  backEdge : EStateM.CutShort R P cut v.backEdge w.backEdge

/-- A loop that may start again more often outlasts one that is cut off when its fuel is used up. -/
lemma loops_cutShort (hRP : ∀ s t, R s t → P s t)
    (hback : EStateM.CutShort R P cut v.backEdge w.backEdge) (hfuel : Run.Enough cut fuel fuel') :
    LoopsRel (.cutShort R P cut) v w fuel fuel' := by
  intro label inner inner' hinner
  have hgrows : ∀ fuel' d s, Maintains (P s) (iterate w.backEdge label inner' fuel' d) :=
    fun fuel' d s => maintains_iterate (hback.grows s) (fun d => (hinner d).grows s) d
  induction fuel generalizing fuel' with
  | zero =>
    exact fun d => hfuel.cutShort_zero (y := (iterate w.backEdge label inner' · d)) hRP rfl
      (hgrows fuel' d)
  | succ fuel ih =>
    cases fuel' with
    | zero =>
      rcases hfuel with h | h
      · cases h
      · cases h.1
    | succ fuel' => exact round_rel (.cutShort R P cut) hback hinner (ih hfuel.of_succ)

/-- Walks with visitors of which the second one outlasts the first one. -/
theorem walk_cutShort (hRP : ∀ s t, R s t → P s t)
    (h : v.CutShort R P cut w) (hfuel : Run.Enough cut fuel fuel') (x : Shape B C) :
    CutShort R P cut (x.walk v fuel) (x.walk w fuel') :=
  walk_rel (loops_cutShort hRP h.backEdge hfuel) (all_of_forall h.body h.test x)

end Shape

end Dynarec
