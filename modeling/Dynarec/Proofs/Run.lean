import Mathlib.Order.Basic
import Mathlib.Order.Nat
import Mathlib.Tactic.Common
import Dynarec.Shape.Walk

/-!
# Bounded runs

Laws of runs that keep their state when they stop. `Run.Finishes` says that a run bounded by fuel
gives a result, other than having reached its bound, for some fuel.
-/

namespace Dynarec

section
variable {ε σ α β : Type}

/-- A bind succeeds if both parts do. -/
lemma except_bind_eq_ok {x : Except ε α} {f : α → Except ε β} {b : β} :
    (x >>= f) = .ok b ↔ ∃ a, x = .ok a ∧ f a = .ok b := by
  cases x with
  | error e => exact ⟨nofun, nofun⟩
  | ok a =>
    constructor
    · exact fun h => ⟨a, rfl, h⟩
    · rintro ⟨_, ⟨⟩, h⟩
      exact h

/-- What every step of a fold keeps holds of what the fold gives. -/
lemma except_foldlM_keeps {P : β → Prop} {step : β → α → Except ε β} {xs : List α}
    (hstep : ∀ x ∈ xs, ∀ b b', P b → step b x = .ok b' → P b') {b b' : β} (hb : P b)
    (h : xs.foldlM step b = .ok b') : P b' := by
  induction xs generalizing b with
  | nil =>
    cases h
    exact hb
  | cons x xs ih =>
    rw [List.foldlM_cons] at h
    obtain ⟨b₁, hx, hrest⟩ := except_bind_eq_ok.mp h
    exact ih (fun y hy => hstep y (List.mem_cons_of_mem _ hy))
      (hstep x List.mem_cons_self b b₁ hb hx) hrest

/-- A map that steps pass on is passed on by a fold of them. -/
lemma except_foldlM_map {f : β → β} {step : β → α → Except ε β}
    (hstep : ∀ b x, step (f b) x = (step b x).map f) (xs : List α) (b : β) :
    xs.foldlM step (f b) = (xs.foldlM step b).map f := by
  induction xs generalizing b with
  | nil => rfl
  | cons x xs ih =>
    rw [List.foldlM_cons, List.foldlM_cons, hstep]
    cases step b x with
    | error e => rfl
    | ok b' => exact ih b'

/-- A bind goes on with what the first part gives. -/
lemma EStateM.bind_ok {x : EStateM ε σ α} {f : α → EStateM ε σ β} {s s' : σ} {a : α}
    (h : x s = .ok a s') : (x >>= f) s = f a s' := by
  change (match x s with | .ok a s => f a s | .error e s => .error e s) = _
  rw [h]

/-- A bind stops with the first part. -/
lemma EStateM.bind_error {x : EStateM ε σ α} {f : α → EStateM ε σ β} {s s' : σ} {e : ε}
    (h : x s = .error e s') : (x >>= f) s = .error e s' := by
  change (match x s with | .ok a s => f a s | .error e s => .error e s) = _
  rw [h]

/-- A bind that succeeds has run both parts. -/
lemma EStateM.of_bind_ok {x : EStateM ε σ α} {f : α → EStateM ε σ β} {s s' : σ} {b : β}
    (h : (x >>= f) s = .ok b s') : ∃ a s₁, x s = .ok a s₁ ∧ f a s₁ = .ok b s' := by
  cases hx : x s with
  | ok a s₁ => exact ⟨a, s₁, rfl, (bind_ok hx).symm.trans h⟩
  | error e s₁ => rw [bind_error hx] at h; cases h

/-- A bind that fails has failed in one of its parts. -/
lemma EStateM.of_bind_error {x : EStateM ε σ α} {f : α → EStateM ε σ β} {s s' : σ} {e : ε}
    (h : (x >>= f) s = .error e s') :
    x s = .error e s' ∨ ∃ a s₁, x s = .ok a s₁ ∧ f a s₁ = .error e s' := by
  cases hx : x s with
  | ok a s₁ => exact .inr ⟨a, s₁, rfl, (bind_ok hx).symm.trans h⟩
  | error e₁ s₁ => rw [bind_error hx] at h; cases h; exact .inl rfl

/-- The state that a stateful computation leaves, also when it fails. -/
def EStateM.after : EStateM.Result ε σ α → σ
  | .ok _ s => s
  | .error _ s => s

@[simp] lemma EStateM.after_ok (a : α) (s : σ) : after (.ok a s : EStateM.Result ε σ α) = s := rfl

@[simp] lemma EStateM.after_error (e : ε) (s : σ) :
    after (.error e s : EStateM.Result ε σ α) = s := rfl

/-- A computation leaves a state that is related to the one before. -/
def EStateM.Keeps (R : σ → σ → Prop) (x : EStateM ε σ α) : Prop := ∀ s, R s (after (x s))

variable {R : σ → σ → Prop} {x : EStateM ε σ α}

lemma EStateM.Keeps.of_ok (h : Keeps R x) {s s' : σ} {a : α} (hx : x s = .ok a s') : R s s' := by
  have := h s
  rwa [hx] at this

lemma EStateM.Keeps.of_error (h : Keeps R x) {s s' : σ} {e : ε} (hx : x s = .error e s') :
    R s s' := by
  have := h s
  rwa [hx] at this

lemma EStateM.keeps_pure [Std.Refl R] (a : α) : Keeps (ε := ε) R (pure a) :=
  fun s => Std.Refl.refl s

lemma EStateM.Keeps.bind [IsTrans σ R] {f : α → EStateM ε σ β} (hx : Keeps R x)
    (hf : ∀ a, Keeps R (f a)) : Keeps R (x >>= f) := by
  intro s
  cases h : x s with
  | ok a s₁ =>
    rw [bind_ok h]
    exact IsTrans.trans _ _ _ (hx.of_ok h) (hf a s₁)
  | error e s₁ =>
    rw [bind_error h]
    exact hx.of_error h

end

namespace Run

variable {ε σ α β : Type}

/-- The result of a run that did not reach its bound. -/
def Stopped : EStateM.Result (Halt ε) σ α → Prop
  | .error .outOfFuel _ => False
  | _ => True

/-- Whether a run that fails has reached its bound hangs on nothing but its error. -/
lemma stopped_error {τ : Type} {e : Halt ε} {s : σ} {t : τ}
    (h : Stopped (.error e s : EStateM.Result (Halt ε) σ α)) :
    Stopped (.error e t : EStateM.Result (Halt ε) τ β) := by
  cases e with
  | error e => trivial
  | outOfFuel => exact h

/-- A bounded run gives a result for some fuel. -/
def Finishes (x : Nat → Run ε σ α) (s : σ) (r : EStateM.Result (Halt ε) σ α) : Prop :=
  Stopped r ∧ ∃ fuel, x fuel s = r

/-- The second run does what the first one does, unless the first one reaches its bound. -/
def Below (x y : Run ε σ α) : Prop := ∀ s, Stopped (x s) → y s = x s

lemma Below.refl (x : Run ε σ α) : Below x x := fun _ _ => rfl

lemma below_outOfFuel (y : Run ε σ α) : Below (throw .outOfFuel) y := fun _ h => h.elim

lemma Below.trans {x y z : Run ε σ α} (hxy : Below x y) (hyz : Below y z) : Below x z := by
  intro s h
  have hy := hxy s h
  rw [hyz s (hy ▸ h), hy]

lemma Below.bind {x y : Run ε σ α} {f g : α → Run ε σ β} (hx : Below x y)
    (hf : ∀ a, Below (f a) (g a)) : Below (x >>= f) (y >>= g) := by
  intro s h
  cases hs : x s with
  | ok a s₁ =>
    have hy : y s = .ok a s₁ := (hx s (hs ▸ trivial)).trans hs
    rw [EStateM.bind_ok hs] at h
    rw [EStateM.bind_ok hs, EStateM.bind_ok hy]
    exact hf a s₁ h
  | error e s₁ =>
    rw [EStateM.bind_error hs] at h
    have hy : y s = .error e s₁ := by
      rw [hx s (hs ▸ stopped_error h), hs]
    rw [EStateM.bind_error hs, EStateM.bind_error hy]

/-- A run from a state of some kind does not reach its bound; if it succeeds it ends in a state of
that kind, related to the one it started from. -/
def Stops (P : σ → Prop) (R : σ → σ → Prop) (x : Run ε σ α) : Prop :=
  ∀ s, P s → Stopped (x s) ∧ ∀ a s', x s = .ok a s' → P s' ∧ R s s'

/-- A run that stops and does not make a measure grow. -/
abbrev Steady (P : σ → Prop) (μ : σ → Nat) (x : Run ε σ α) : Prop :=
  Stops P (fun s s' => μ s' ≤ μ s) x

/-- A run that stops and makes a measure smaller. -/
abbrev Shrinks (P : σ → Prop) (μ : σ → Nat) (x : Run ε σ α) : Prop :=
  Stops P (fun s s' => μ s' < μ s) x

section
variable {P : σ → Prop} {μ : σ → Nat} {x : Run ε σ α}

lemma steady_pure (a : α) : Steady (ε := ε) P μ (pure a) := by
  intro s hs
  refine ⟨trivial, fun a' s' h => ?_⟩
  cases h
  exact ⟨hs, Nat.le_refl _⟩

lemma Steady.bind {f : α → Run ε σ β} (hx : Steady P μ x) (hf : ∀ a, Steady P μ (f a)) :
    Steady P μ (x >>= f) := by
  intro s hs
  obtain ⟨hstop, hok⟩ := hx s hs
  cases h : x s with
  | ok a s₁ =>
    obtain ⟨hs₁, hle⟩ := hok a s₁ h
    rw [EStateM.bind_ok h]
    refine ⟨(hf a s₁ hs₁).1, fun b s' hb => ?_⟩
    obtain ⟨hs', hle'⟩ := (hf a s₁ hs₁).2 b s' hb
    exact ⟨hs', hle'.trans hle⟩
  | error e s₁ =>
    rw [EStateM.bind_error h]
    rw [h] at hstop
    exact ⟨stopped_error hstop, fun b s' hb => by cases hb⟩

end

/-! ### One after the other -/

section
variable {ι : Type}

/-- Running a list is running its items one after the other until one gives a value. -/
structure InTurn (step : ι → Run ε σ (Option α)) (run : List ι → Run ε σ (Option α)) : Prop where
  nil : run [] = pure none
  cons : ∀ x xs, run (x :: xs) =
    step x >>= fun r => r.elim (run xs) fun value => pure (some value)

variable {step : ι → Run ε σ (Option α)} {run : List ι → Run ε σ (Option α)}

/-- Items run in two parts. -/
lemma InTurn.append (h : InTurn step run) (xs ys : List ι) :
    run (xs ++ ys) = run xs >>= fun r => r.elim (run ys) fun value => pure (some value) := by
  induction xs with
  | nil => rw [List.nil_append, h.nil, pure_bind, Option.elim_none]
  | cons x xs ih =>
    rw [List.cons_append, h.cons, h.cons, bind_assoc, ih]
    congr 1
    funext r
    cases r with
    | none => rfl
    | some value => rfl

/-- Items of which one gives a value do not come to their end. -/
lemma InTurn.ne_none (h : InTurn step run) {x : ι} (hx : ∀ s s', step x s ≠ .ok none s')
    {xs : List ι} (hmem : x ∈ xs) (s s' : σ) : run xs s ≠ .ok none s' := by
  induction xs generalizing s with
  | nil => cases hmem
  | cons y xs ih =>
    intro hrun
    rw [h.cons] at hrun
    obtain ⟨r, s₁, hy, hrest⟩ := EStateM.of_bind_ok hrun
    cases r with
    | some value => cases hrest
    | none =>
      rcases List.mem_cons.1 hmem with rfl | hmem
      · exact hx s s₁ hy
      · exact ih hmem s₁ hrest

end

/-! ### Relations that are kept step by step -/

/-- A relation between two runs that doing one thing after the other keeps. -/
structure Congruence (ε σ τ : Type) where
  Rel {α : Type} : Run ε σ α → Run ε τ α → Prop
  pure {α : Type} (a : α) : Rel (pure a) (pure a)
  bind {α β : Type} {x : Run ε σ α} {y : Run ε τ α} {f : α → Run ε σ β} {g : α → Run ε τ β} :
    Rel x y → (∀ a, Rel (f a) (g a)) → Rel (x >>= f) (y >>= g)

namespace Congruence

/-- The second run does what the first one does, unless the first one reaches its bound. -/
abbrev below : Congruence ε σ σ where
  Rel := Below
  pure a := .refl (Pure.pure a)
  bind := Below.bind

/-- The first run stops and does not make a measure grow. -/
abbrev steady (P : σ → Prop) (μ : σ → Nat) : Congruence ε σ σ where
  Rel x _ := Steady P μ x
  pure := steady_pure
  bind := Steady.bind

end Congruence

end Run

end Dynarec
