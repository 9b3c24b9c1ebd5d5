import Dynarec.Proofs.Interp.Trace

/-!
# Functions in two forms

One function may be brought into structured form in more than one way. Two forms of it do the same
operations and charge the same jumps back, but their loops nest in different ways, so that a run of
one may need more fuel than a run of the other. `Siblings` says that their runs finish alike,
whatever the host notes of their effects and however it serves their requests.
-/

namespace Dynarec.Interp

open Ir (Op Operand Ty)

variable {H : Type} {noting : Cpu.State → Memory → H → H} {s t : Services H} {f f' : Ir.Function}

/-- Two forms of one function. -/
structure Siblings (f f' : Ir.Function) : Prop where
  entry : f'.entry = f.entry
  locals : f'.locals = f.locals
  finishes : ∀ {H : Type} (noting : Cpu.State → Memory → H → H) (s : Services H) (frame : Frame H)
    (r : EStateM.Result (Halt Error) (Frame H) (Option UInt64)),
    Run.Finishes (f.body.walk (tracer noting s f.locals) ·) frame r ↔
      Run.Finishes (f'.body.walk (tracer noting s f.locals) ·) frame r

lemma Siblings.refl (f : Ir.Function) : Siblings f f := ⟨rfl, rfl, fun _ _ _ _ => Iff.rfl⟩

lemma Siblings.symm (h : Siblings f f') : Siblings f' f where
  entry := h.entry.symm
  locals := h.locals.symm
  finishes noting s frame r := by
    rw [h.locals]
    exact (h.finishes noting s frame r).symm

/-- Traced runs of two forms finish alike. -/
theorem Siblings.trace (h : Siblings f f') {m : Machine H}
    {r : EStateM.Result (Halt Error) (Machine H) UInt64}
    (hr : Run.Finishes (Interp.trace noting s · f) m r) :
    Run.Finishes (Interp.trace noting s · f') m r := by
  obtain ⟨hstop, fuel, rfl⟩ := hr
  obtain ⟨-, fuel', hwalk⟩ := (h.finishes noting s _ _).1 ⟨stopped_of_trace hstop, fuel, rfl⟩
  have hwalk : f'.body.walk (tracer noting s f.locals) fuel'
      ⟨m, Array.replicate f.locals.size 0⟩ =
    f.body.walk (tracer noting s f.locals) fuel ⟨m, Array.replicate f.locals.size 0⟩ := hwalk
  refine ⟨hstop, fuel', ?_⟩
  show Interp.trace noting s fuel' f' m = Interp.trace noting s fuel f m
  simp only [Interp.trace, finish, h.locals, h.entry, hwalk]

/-- More fuel changes nothing of a traced run that stops. -/
lemma trace_below (h : s.Below t) {fuel fuel' : Nat} (hle : fuel ≤ fuel') (f : Ir.Function) :
    Run.Below (trace noting s fuel f) (trace noting t fuel' f) := by
  intro m hm
  have hv : (tracer noting s f.locals).Below (tracer noting t f.locals) :=
    ⟨traceOps_rel (Run.Below.refl (noteEffects noting)) (h.related f.locals), fun _ => .refl _, onMachine_below h.tick⟩
  unfold trace finish
  rw [Shape.walk_below hv hle f.body _ (stopped_of_trace hm)]

/-! ### Joined bodies -/

variable {types : Array Ty}

lemma inTurn_traceOps : Run.InTurn (traceOp noting s types) (traceOps noting s types) where
  nil := by rw [traceOps]
  cons op rest := by
    rw [traceOps]
    congr 1
    funext r
    cases r <;> rfl

/-- Operations are traced in two parts. -/
lemma traceOps_append (xs ys : List Op) :
    traceOps noting s types (xs ++ ys) = (do
      match ← traceOps noting s types xs with
      | some value => return some value
      | none => traceOps noting s types ys) := by
  rw [inTurn_traceOps.append]
  congr 1
  funext r
  cases r <;> rfl

/-- Operations of which one returns do not come to their end when they are traced. -/
lemma traceOps_ne_none {ops : List Op} (h : ∃ x, .ret x ∈ ops) (f f' : Frame H) :
    traceOps noting s types ops f ≠ .ok none f' := by
  obtain ⟨x, hx⟩ := h
  refine inTurn_traceOps.ne_none (fun f f' hop => ?_) hx f f'
  simp only [traceOp, runOp] at hop
  cases hop

end Dynarec.Interp
