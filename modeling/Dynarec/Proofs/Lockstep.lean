import Dynarec.Proofs.Run

/-!
# Runs in lockstep

Two runs that go the same way on related states. They need to do so only as long as the first one
leaves a good state; a state that is good after a run was good before it, so this may be told from
the end.
-/

namespace Dynarec.Run

variable {ε σ τ α β γ : Type}

/-- Two runs end alike: with related values and states, or with the same error of some kind in
related states. -/
def MatchedBy (Q : α → σ → β → τ → Prop) (R : σ → τ → Prop) (E : Halt ε → Prop) :
    EStateM.Result (Halt ε) σ α → EStateM.Result (Halt ε) τ β → Prop
  | .ok a s, .ok b t => Q a s b t
  | .error e s, .error e' t => e = e' ∧ E e ∧ R s t
  | _, _ => False

/-- Two runs end alike: with the same value or the same error of some kind, in related states. -/
abbrev Matched (R : σ → τ → Prop) (E : Halt ε → Prop) :
    EStateM.Result (Halt ε) σ α → EStateM.Result (Halt ε) τ α → Prop :=
  MatchedBy (fun a s b t => a = b ∧ R s t) R E

/-- Of two runs that end alike one stops if the other one does. -/
lemma MatchedBy.stopped {Q : α → σ → β → τ → Prop} {R : σ → τ → Prop} {E : Halt ε → Prop}
    {r : EStateM.Result (Halt ε) σ α} {r' : EStateM.Result (Halt ε) τ β} (h : MatchedBy Q R E r r')
    (hr : Stopped r) : Stopped r' := by
  cases r with
  | ok a s =>
    cases r' with
    | ok b t => trivial
    | error e t => exact h.elim
  | error e s =>
    cases r' with
    | ok b t => exact h.elim
    | error e' t =>
      rw [← h.1]
      exact stopped_error hr

/-- What two runs that end alike do next. -/
lemma MatchedBy.bind {Q : α → σ → β → τ → Prop} {R : σ → τ → Prop} {E : Halt ε → Prop}
    {x : Run ε σ α} {y : Run ε τ β} {s : σ} {t : τ} (h : MatchedBy Q R E (x s) (y t))
    {f : α → Run ε σ γ} {g : β → Run ε τ γ}
    (hf : ∀ a s₁ b t₁, x s = .ok a s₁ → Q a s₁ b t₁ → Matched R E (f a s₁) (g b t₁)) :
    Matched R E ((x >>= f) s) ((y >>= g) t) := by
  cases hs : x s with
  | ok a s₁ =>
    rw [EStateM.bind_ok hs]
    cases ht : y t with
    | ok b t₁ =>
      rw [hs, ht] at h
      rw [EStateM.bind_ok ht]
      exact hf a s₁ b t₁ hs h
    | error e t₁ =>
      rw [hs, ht] at h
      exact h.elim
  | error e s₁ =>
    rw [EStateM.bind_error hs]
    cases ht : y t with
    | ok b t₁ =>
      rw [hs, ht] at h
      exact h.elim
    | error e' t₁ =>
      rw [hs, ht] at h
      rw [EStateM.bind_error ht]
      exact h

/-- What two runs that end alike do next, when the second one is chosen after the first parts. -/
lemma MatchedBy.exists_bind {Q : α → σ → β → τ → Prop} {R : σ → τ → Prop} {E : Halt ε → Prop}
    {x : Run ε σ α} {y : Run ε τ β} {s : σ} {t : τ} (h : MatchedBy Q R E (x s) (y t))
    {f : α → Run ε σ γ} {g : Nat → β → Run ε τ γ}
    (hf : ∀ a s₁ b t₁, x s = .ok a s₁ → Q a s₁ b t₁ → ∃ n, Matched R E (f a s₁) (g n b t₁)) :
    ∃ n, Matched R E ((x >>= f) s) ((y >>= g n) t) := by
  cases hs : x s with
  | error e s₁ =>
    refine ⟨0, h.bind fun a s₁ b t₁ hx _ => ?_⟩
    rw [hs] at hx
    cases hx
  | ok a s₁ =>
    cases ht : y t with
    | error e t₁ =>
      rw [hs, ht] at h
      exact h.elim
    | ok b t₁ =>
      rw [hs, ht] at h
      rw [EStateM.bind_ok hs]
      obtain ⟨n, hn⟩ := hf a s₁ b t₁ hs h
      exact ⟨n, by rwa [EStateM.bind_ok ht]⟩

/-- Two runs end alike from related states, unless the state that the first one leaves is not good;
and only from good states it leaves good ones. -/
structure Lockstep (good : σ → Prop) (R : σ → τ → Prop) (E : Halt ε → Prop) (x : Run ε σ α)
    (y : Run ε τ α) : Prop where
  back : ∀ s, good (EStateM.after (x s)) → good s
  step : ∀ s t, R s t → good (EStateM.after (x s)) → Matched R E (x s) (y t)

variable {good : σ → Prop} {R : σ → τ → Prop} {E : Halt ε → Prop}

lemma lockstep_pure (a : α) : Lockstep good R E (pure a) (pure a) where
  back _ h := h
  step _ _ h _ := ⟨rfl, h⟩

lemma lockstep_throw {e : Halt ε} (h : E e) :
    Lockstep good R E (throw e : Run ε σ α) (throw e) where
  back _ h := h
  step _ _ hst _ := ⟨rfl, h, hst⟩

lemma Lockstep.bind {x : Run ε σ α} {y : Run ε τ α} {f : α → Run ε σ β} {g : α → Run ε τ β}
    (hx : Lockstep good R E x y) (hf : ∀ a, Lockstep good R E (f a) (g a)) :
    Lockstep good R E (x >>= f) (y >>= g) where
  back s h := by
    apply hx.back s
    cases hs : x s with
    | ok a s₁ =>
      rw [EStateM.bind_ok hs] at h
      exact (hf a).back s₁ h
    | error e s₁ => rwa [EStateM.bind_error hs] at h
  step s t hst h := by
    have hx₁ : Matched R E (x s) (y t) := hx.step s t hst <| by
      -- the state between the two parts is good, since the one at the end is
      cases hs : x s with
      | ok a s₁ =>
        rw [EStateM.bind_ok hs] at h
        exact (hf a).back s₁ h
      | error e s₁ => rwa [EStateM.bind_error hs] at h
    apply hx₁.bind
    rintro a s₁ b t₁ hs ⟨rfl, hst₁⟩
    rw [EStateM.bind_ok hs] at h
    exact (hf a).step s₁ t₁ hst₁ h

/-- Going in lockstep is kept step by step. -/
abbrev Congruence.lockstep (good : σ → Prop) (R : σ → τ → Prop) (E : Halt ε → Prop) :
    Congruence ε σ τ where
  Rel := Lockstep good R E
  pure := lockstep_pure
  bind := Lockstep.bind

/-! ### What a run maintains -/

/-- From a state with a property the next one has it too. -/
def Along (P : σ → Prop) (s s' : σ) : Prop := P s → P s'

instance (P : σ → Prop) : Std.Refl (Along P) := ⟨fun _ h => h⟩

instance (P : σ → Prop) : IsTrans σ (Along P) := ⟨fun _ _ _ h h' hs => h' (h hs)⟩

/-- A run leaves a state with a property when it starts from one, however it ends. -/
abbrev Maintains (P : σ → Prop) (x : Run ε σ α) : Prop := EStateM.Keeps (Along P) x

/-- Maintaining a property is kept step by step. -/
abbrev Congruence.maintains (P : σ → Prop) : Congruence ε σ σ where
  Rel x _ := Maintains P x
  pure := EStateM.keeps_pure
  bind := EStateM.Keeps.bind

end Dynarec.Run
