import Dynarec.Proofs.Interp.Trace

/-!
# Runs with enough fuel for their requests

A run that stops makes finitely many requests. So if a second host serves each of them as the first
one does once it has enough fuel, there is fuel that is enough for all of them. To show this the
second host keeps the fuel for its requests beside what it keeps anyway, and the two runs are followed
step by step: `Eventually` says that the result is the same for all fuel from some on.
-/

namespace Dynarec

namespace Run

variable {ε σ τ υ α β : Type}

/-- A result, in another state. -/
def inState (f : τ → υ) : EStateM.Result (Halt ε) τ α → EStateM.Result (Halt ε) υ α
  | .ok a t => .ok a (f t)
  | .error e t => .error e (f t)

lemma inState_injective {f : τ → υ} (hf : Function.Injective f) {r r' : EStateM.Result (Halt ε) τ α}
    (h : inState f r = inState f r') : r = r' := by
  rcases r with ⟨a, t⟩ | ⟨e, t⟩ <;> rcases r' with ⟨a', t'⟩ | ⟨e', t'⟩ <;>
    simp only [inState, EStateM.Result.ok.injEq, EStateM.Result.error.injEq, reduceCtorEq] at h
  · rw [h.1, hf h.2]
  · rw [h.1, hf h.2]

/-- Doing the same in other states is kept step by step. -/
abbrev Congruence.inState (f : τ → υ) : Congruence ε τ υ where
  Rel x y := ∀ t, y (f t) = Run.inState f (x t)
  pure _ _ := rfl
  bind {_ _ x _ _ _} hx hf t := by
    have hx := hx t
    cases h : x t with
    | ok a t₁ =>
      rw [h] at hx
      rw [EStateM.bind_ok h, EStateM.bind_ok hx]
      exact hf a t₁
    | error e t₁ =>
      rw [h] at hx
      rw [EStateM.bind_error h, EStateM.bind_error hx]
      rfl

/-- Where the first run stops, the second one has one result, which ends like the first one's, in all
states in which it is given enough. -/
def Eventually (R : σ → τ → Prop) (give : Nat → τ → υ) (x : Run ε σ α) (y : Run ε υ α) : Prop :=
  ∀ s t, R s t → Stopped (x s) → ∃ n r, Matched R (fun _ => True) (x s) r ∧
    ∀ j, n ≤ j → y (give j t) = inState (give j) r

variable {R : σ → τ → Prop} {give : Nat → τ → υ}

lemma eventually_pure (a : α) : Eventually (ε := ε) R give (pure a) (pure a) :=
  fun _ t h _ => ⟨0, .ok a t, ⟨rfl, h⟩, fun _ _ => rfl⟩

lemma eventually_outOfFuel (y : Run ε υ α) : Eventually R give (throw .outOfFuel) y :=
  fun _ _ _ h => h.elim

lemma Eventually.bind {x : Run ε σ α} {y : Run ε υ α} {f : α → Run ε σ β} {g : α → Run ε υ β}
    (hx : Eventually R give x y) (hf : ∀ a, Eventually R give (f a) (g a)) :
    Eventually R give (x >>= f) (y >>= g) := by
  intro s t hst hstop
  cases hs : x s with
  | ok a s₁ =>
    obtain ⟨n, r, hr, hy⟩ := hx s t hst (hs ▸ trivial)
    rw [hs] at hr
    rw [EStateM.bind_ok hs] at hstop ⊢
    rcases r with ⟨b, t₁⟩ | ⟨e, t₁⟩
    · obtain ⟨rfl, hst₁⟩ := hr
      obtain ⟨n', r', hr', hg⟩ := hf a s₁ t₁ hst₁ hstop
      -- enough for both parts is what is enough for either
      refine ⟨max n n', r', hr', fun j hj => ?_⟩
      rw [EStateM.bind_ok (hy j (le_trans (le_max_left n n') hj))]
      exact hg j (le_trans (le_max_right n n') hj)
    · exact hr.elim
  | error e s₁ =>
    rw [EStateM.bind_error hs] at hstop ⊢
    obtain ⟨n, r, hr, hy⟩ := hx s t hst (hs ▸ stopped_error hstop)
    rw [hs] at hr
    rcases r with ⟨b, t₁⟩ | ⟨e', t₁⟩
    · exact hr.elim
    · exact ⟨n, .error e' t₁, hr, fun j hj => EStateM.bind_error (hy j hj)⟩

/-- Having one result where enough is given is kept step by step. -/
abbrev Congruence.eventually (R : σ → τ → Prop) (give : Nat → τ → υ) : Congruence ε σ υ where
  Rel := Eventually R give
  pure := eventually_pure
  bind := Eventually.bind

/-- What goes the same way whatever is given needs nothing. -/
lemma Lockstep.eventually {x : Run ε σ α} {y : Run ε τ α} {z : Run ε υ α}
    (h : Lockstep (fun _ => True) R (fun _ => True) x y)
    (hz : ∀ j t, z (give j t) = inState (give j) (y t)) : Eventually R give x z :=
  fun s t hst _ => ⟨0, y t, h.step s t hst trivial, fun j _ => hz j t⟩

end Run

namespace Interp

open Ir (Op Operand Ty)
open Run (Lockstep Eventually inState Matched Stopped)

variable {H H' X α : Type}

/-! ### Beside the host -/

/-- A machine whose host has something beside it. -/
def withBeside (x : X) (m : Machine H) : Machine (H × X) := ⟨m.cpu, m.mem, (m.host, x)⟩

/-- A machine without what is beside its host. -/
def withoutBeside (m : Machine (H × X)) : Machine H := ⟨m.cpu, m.mem, m.host.1⟩

/-- Do something on a machine, and leave what is beside its host alone. -/
def beside (act : Run Error (Machine H) α) : Run Error (Machine (H × X)) α := fun m =>
  inState (withBeside m.host.2) (act (withoutBeside m))

/-- A frame whose host has something beside it. -/
def Frame.withBeside (x : X) (f : Frame H) : Frame (H × X) := ⟨Interp.withBeside x f.machine, f.locals⟩

lemma Frame.withBeside_injective (x : X) :
    Function.Injective (Frame.withBeside x : Frame H → Frame (H × X)) := by
  rintro ⟨⟨cpu, mem, host⟩, locals⟩ ⟨⟨cpu', mem', host'⟩, locals'⟩ h
  simp only [Frame.withBeside, Interp.withBeside, Frame.mk.injEq, Machine.mk.injEq,
    Prod.mk.injEq, and_true] at h
  obtain ⟨⟨rfl, rfl, rfl⟩, rfl⟩ := h
  rfl

/-- What a host notes, with something beside it. -/
def notingBeside (noting : Cpu.State → Memory → H → H) (cpu : Cpu.State) (mem : Memory)
    (h : H × X) : H × X := (noting cpu mem h.1, h.2)

variable {types : Array Ty} {x : X}

lemma onMachine_inState {act : Run Error (Machine H) α} {act' : Run Error (Machine (H × X)) α}
    (h : ∀ m, act' (withBeside x m) = inState (withBeside x) (act m)) (f : Frame H) :
    onMachine act' (f.withBeside x) = inState (Frame.withBeside x) (onMachine act f) := by
  obtain ⟨m, locals⟩ := f
  have hm := h m
  simp only [onMachine, Frame.withBeside]
  rw [hm]
  cases act m <;> rfl

/-- Operations other than requests do not see what is beside the host. -/
lemma inState_related {s : Services H} {t : Services (H × X)}
    (h : ∀ r m, t.request r (withBeside x m) = inState (withBeside x) (s.request r m)) :
    Related (.inState (Frame.withBeside x)) types s t where
  read operand f := by
    cases operand with
    | imm value => rfl
    | place place => cases place <;> rfl
  write place value f := by cases place <;> rfl
  load addr size f := by
    have hmem : (f.withBeside x).machine.mem = f.machine.mem := rfl
    simp only [load, hmem]
    cases f.machine.mem.read addr size <;> rfl
  store addr size value := by
    rintro ⟨⟨cpu, mem, host⟩, locals⟩
    simp only [Frame.withBeside, withBeside, store]
    cases Memory.write addr size value mem <;> rfl
  request r := onMachine_inState (h r)

lemma noteEffects_inState (noting : Cpu.State → Memory → H → H) (f : Frame H) :
    noteEffects (notingBeside noting) (f.withBeside x) =
      inState (Frame.withBeside x) (noteEffects noting f) := rfl

/-- A walk with something beside the host is the walk itself. -/
lemma walk_inState {s : Services H} {t : Services (H × X)}
    (hrequest : ∀ r m, t.request r (withBeside x m) = inState (withBeside x) (s.request r m))
    (htick : ∀ m, t.tick (withBeside x m) = inState (withBeside x) (s.tick m))
    (noting : Cpu.State → Memory → H → H) (fuel : Nat) (body : Shape (List Op) Operand)
    (f : Frame H) :
    body.walk (tracer (notingBeside noting) t types) fuel (f.withBeside x) =
      inState (Frame.withBeside x) (body.walk (tracer noting s types) fuel f) := by
  have hrelated : Related (.inState (Frame.withBeside x)) types s t := inState_related hrequest
  have hloops : Shape.LoopsRel (.inState (Frame.withBeside x)) (tracer noting s types)
      (tracer (notingBeside noting) t types) fuel fuel := fun _ _ _ hinner =>
    Shape.iterate_rel _ (fun _ => rfl) (onMachine_inState htick) hinner
  refine Shape.walk_rel hloops (Shape.all_of_forall (fun b => ?_) (fun c => ?_) body) f
  · exact traceOps_rel (noteEffects_inState noting) hrelated b
  · exact (Run.Congruence.inState _).bind (hrelated.read c) fun _ _ => rfl

/-! ### Fuel beside the host -/

/-- A host that serves requests with the fuel that it keeps beside it. -/
def fueled (request : Nat → Request → Run Error (Machine H) UInt64)
    (tick : Run Error (Machine H) Unit) : Services (H × Nat) where
  request r := fun m => beside (request m.host.2 r) m
  tick := beside tick

section
variable {R : H → H' → Prop} {s : Services H} {request : Nat → Request → Run Error (Machine H') UInt64}
  {tick : Run Error (Machine H') Unit} {noting : Cpu.State → Memory → H → H}
  {noting' : Cpu.State → Memory → H' → H'}

/-- A second host serves every request that stops as the first one does, once it has enough fuel. -/
def ServesEventually (R : H → H' → Prop) (s : Services H)
    (request : Nat → Request → Run Error (Machine H') UInt64) : Prop :=
  ∀ r m m', OnHosts R m m' → Stopped (s.request r m) → ∃ n r', 
    Matched (OnHosts R) (fun _ => True) (s.request r m) r' ∧ ∀ j, n ≤ j → request j r m' = r'

lemma onMachine_eventually (h : ServesEventually R s request) (r : Request) :
    Eventually (OnFrames (OnHosts R)) Frame.withBeside (onMachine (s.request r))
      (onMachine ((fueled request tick).request r)) := by
  rintro ⟨m, locals⟩ ⟨m', locals'⟩ ⟨hm, rfl⟩ hstop
  have hstop : Stopped (s.request r m) := by
    cases hs : s.request r m with
    | ok a m₁ => trivial
    | error e m₁ =>
      rw [onMachine_error hs] at hstop
      exact Run.stopped_error hstop
  obtain ⟨n, r', hr', hall⟩ := h r m m' hm hstop
  refine ⟨n, onMachine (fun _ => r') ⟨m', locals'⟩, ?_, fun j hj => ?_⟩
  · rcases hs : s.request r m with ⟨a, m₁⟩ | ⟨e, m₁⟩ <;> rw [hs] at hr' <;>
      rcases r' with ⟨a', m₁'⟩ | ⟨e', m₁'⟩
    · rw [onMachine_ok hs]
      exact ⟨hr'.1, hr'.2, rfl⟩
    · exact hr'.elim
    · exact hr'.elim
    · rw [onMachine_error hs]
      exact ⟨hr'.1, trivial, hr'.2.2, rfl⟩
  · have hgiven : onMachine ((fueled request tick).request r) (Frame.withBeside j ⟨m', locals'⟩) =
        inState (Frame.withBeside j) (onMachine (request j r) ⟨m', locals'⟩) :=
      onMachine_inState (fun _ => rfl) ⟨m', locals'⟩
    rw [hgiven]
    simp only [onMachine, hall j hj]

/-- With so much fuel beside the host, requests are served with it. -/
lemma fueled_related (request : Nat → Request → Run Error (Machine H) UInt64)
    (tick : Run Error (Machine H) Unit) (types : Array Ty) (j : Nat) :
    Related (.inState (Frame.withBeside j)) types ⟨request j, tick⟩ (fueled request tick) :=
  inState_related fun _ _ => rfl

lemma eventually_related (h : ServesEventually R s request) :
    Related (.eventually (OnFrames (OnHosts R)) Frame.withBeside) types s (fueled request tick) where
  read operand := ((coupling_onHosts R).read operand).eventually fun j =>
    (fueled_related request tick types j).read operand
  write place value := ((coupling_onHosts R).writePlace place value).eventually fun j =>
    (fueled_related request tick types j).write place value
  load addr size := ((coupling_onHosts R).load addr size).eventually fun j =>
    (fueled_related request tick types j).load addr size
  store addr size value := (store_lockstep R addr size value).eventually fun j =>
    (fueled_related request tick types j).store addr size value
  request r := onMachine_eventually h r

/-- A traced run that stops is that of a second host with enough fuel for its requests. -/
theorem trace_eventually (h : ServesEventually R s request)
    (htick : Lockstep (fun _ => True) (OnHosts R) (fun _ => True) s.tick tick)
    (hnoting : ∀ cpu mem h h', R h h' → R (noting cpu mem h) (noting' cpu mem h')) (fuel : Nat)
    (f : Ir.Function) {m : Machine H} {m' : Machine H'} (hm : OnHosts R m m')
    (hstop : Stopped (trace noting s fuel f m)) :
    ∃ n, Matched (OnHosts R) (fun _ => True) (trace noting s fuel f m)
      (trace noting' ⟨request n, tick⟩ fuel f m') := by
  have hrelated : Related (.eventually (OnFrames (OnHosts R)) Frame.withBeside) f.locals s
      (fueled request tick) := eventually_related h
  have hnote : Eventually (OnFrames (OnHosts R)) Frame.withBeside (noteEffects noting)
      (noteEffects (notingBeside noting')) := by
    rintro ⟨⟨cpu, mem, host⟩, locals⟩ f' ⟨⟨hcpu, hmem, hR⟩, hlocals⟩ _
    obtain ⟨⟨cpu', mem', host'⟩, locals'⟩ := f'
    obtain rfl : cpu' = cpu := hcpu
    obtain rfl : mem' = mem := hmem
    exact ⟨0, .ok () ⟨⟨cpu', mem', noting' cpu' mem' host'⟩, locals'⟩,
      ⟨rfl, ⟨rfl, rfl, hnoting _ _ _ _ hR⟩, hlocals⟩, fun _ _ => rfl⟩
  have hback : Eventually (OnFrames (OnHosts R)) Frame.withBeside (onMachine s.tick)
      (onMachine (beside tick)) := by
    have hlockstep : Lockstep (fun _ => True) (OnFrames (OnHosts R)) (fun _ => True)
        (onMachine s.tick) (onMachine tick) := by
      have hlift := @onMachine_lockstep _ _ _ (fun _ => True) _ _ _ _ htick
      exact hlift
    exact hlockstep.eventually fun j => onMachine_inState fun _ => rfl
  have hloops : Shape.LoopsRel (.eventually (OnFrames (OnHosts R)) Frame.withBeside)
      (tracer noting s f.locals) (tracer (notingBeside noting') (fueled request tick) f.locals)
      fuel fuel := fun _ _ _ hinner =>
    Shape.iterate_rel _ (Run.eventually_outOfFuel _) hback hinner
  have hwalk : Eventually (OnFrames (OnHosts R)) Frame.withBeside
      (f.body.walk (tracer noting s f.locals) fuel)
      (f.body.walk (tracer (notingBeside noting') (fueled request tick) f.locals) fuel) := by
    refine Shape.walk_rel hloops (Shape.all_of_forall (fun b => ?_) (fun c => ?_) f.body)
    · exact traceOps_rel hnote hrelated b
    · exact (hrelated.read c).bind fun _ => Run.eventually_pure _
  obtain ⟨n, r, hr, hgiven⟩ := hwalk ⟨m, Array.replicate f.locals.size 0⟩
    ⟨m', Array.replicate f.locals.size 0⟩ ⟨hm, rfl⟩ (stopped_of_trace hstop)
  -- with that fuel beside the host, the requests are served with it
  have hserved : f.body.walk (tracer (notingBeside noting') (fueled request tick) f.locals) fuel
      (Frame.withBeside n ⟨m', Array.replicate f.locals.size 0⟩) =
    inState (Frame.withBeside n) (f.body.walk (tracer noting' ⟨request n, tick⟩ f.locals) fuel
      ⟨m', Array.replicate f.locals.size 0⟩) :=
    walk_inState (fun _ _ => rfl) (fun _ => rfl) noting' fuel f.body _
  have hsame := Run.inState_injective (Frame.withBeside_injective n) ((hgiven n (Nat.le_refl n)).symm.trans hserved)
  refine ⟨n, (coupling_onHosts R).matched_finish rfl rfl ?_⟩
  rw [← hsame]
  exact hr

end

end Interp

end Dynarec
