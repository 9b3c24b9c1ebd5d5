import Dynarec.Proofs.Emulator.Limits
import Dynarec.Proofs.Interp.Eventually
import Dynarec.Proofs.Interp.Siblings

/-!
# Hosts with two forms of the same functions

Two hosts that find two forms of the function of every request serve requests alike. One of them may
need more fuel than the other, for its loops or for the requests that are made on the way; how much
more is told by no bound, but some fuel is always enough.
-/

namespace Dynarec

open Interp (Request OnHosts ServesEventually)
open Linking (Code)
open Run (Below Lockstep Matched MatchedBy Stopped)

namespace Serving

variable {H H' α : Type} {R : H → H' → Prop} {k : Serving H} {k' : Serving H'}

/-! ### More fuel -/

lemma stopped_of_closing {leave : H → H} {x : Run Error (Machine H) α} {m : Machine H}
    (h : Stopped (closing leave x m)) : Stopped (x m) := by
  unfold closing at h
  cases hx : x m with
  | ok a m₁ => trivial
  | error e m₁ =>
    rw [hx] at h
    exact Run.stopped_error h

lemma closing_below {leave : H → H} {x y : Run Error (Machine H) α} (h : Below x y) :
    Below (closing leave x) (closing leave y) := by
  intro m hm
  unfold closing
  rw [h m (stopped_of_closing hm)]

lemma serve_succ (k : Serving H) (fuel : Nat) (r : Request) :
    k.serve (fuel + 1) r = k.resolve r >>= fun code => k.enter >>= fun _ =>
      closing k.leave (Interp.trace k.noting ⟨k.serve fuel, k.tick⟩ fuel code.function) := rfl

/-- More fuel changes nothing of how a request is served. -/
lemma serve_below (k : Serving H) {fuel fuel' : Nat} (hle : fuel ≤ fuel') (r : Request) :
    Below (k.serve fuel r) (k.serve fuel' r) := by
  induction fuel generalizing fuel' r with
  | zero => exact Run.below_outOfFuel _
  | succ fuel ih =>
    cases fuel' with
    | zero => cases hle
    | succ fuel' =>
      have hle' := Nat.le_of_succ_le_succ hle
      rw [serve_succ, serve_succ]
      refine (Below.refl _).bind fun code => (Below.refl _).bind fun _ => closing_below ?_
      exact Interp.trace_below (s := ⟨k.serve fuel, k.tick⟩) (t := ⟨k.serve fuel', k.tick⟩)
        ⟨ih hle', .refl _⟩ hle' code.function

/-- With any fuel that is enough a request is served the same. -/
lemma serve_unique (k : Serving H) {fuel fuel' : Nat} {r : Request} {m : Machine H}
    (h : Stopped (k.serve fuel r m)) (h' : Stopped (k.serve fuel' r m)) :
    k.serve fuel r m = k.serve fuel' r m := by
  rcases Nat.le_total fuel fuel' with hle | hle
  · exact (k.serve_below hle r m h).symm
  · exact k.serve_below hle r m h'

/-! ### Serving requests -/

/-- The steps of two ways to serve go alike, and the functions that are found are two forms of one. -/
structure Siblings (R : H → H' → Prop) (k : Serving H) (k' : Serving H') : Prop where
  resolve (r : Request) {m : Machine H} {m' : Machine H'} : OnHosts R m m' →
    MatchedBy (fun (code : Code) s (code' : Code) t =>
      Interp.Siblings code.function code'.function ∧ OnHosts R s t) (OnHosts R) (fun _ => True)
      (k.resolve r m) (k'.resolve r m')
  enter : Lockstep (fun _ => True) (OnHosts R) (fun _ => True) k.enter k'.enter
  tick : Lockstep (fun _ => True) (OnHosts R) (fun _ => True) k.tick k'.tick
  leave {h : H} {h' : H'} : R h h' → R (k.leave h) (k'.leave h')
  noting (cpu : Cpu.State) (mem : Memory) (h : H) (h' : H') :
    R h h' → R (k.noting cpu mem h) (k'.noting cpu mem h')

variable (h : Siblings R k k')
include h

lemma Siblings.closing {x : Run Error (Machine H) α} {y : Run Error (Machine H') α} {m : Machine H}
    {m' : Machine H'} (hm : Matched (OnHosts R) (fun _ => True) (x m) (y m')) :
    Matched (OnHosts R) (fun _ => True) (Serving.closing k.leave x m)
      (Serving.closing k'.leave y m') := by
  unfold Serving.closing
  generalize x m = r at hm
  generalize y m' = r' at hm
  rcases r with ⟨a, s⟩ | ⟨e, s⟩ <;> rcases r' with ⟨b, t⟩ | ⟨e', t⟩
  · obtain ⟨rfl, hcpu, hmem, hR⟩ := hm
    exact ⟨rfl, hcpu, hmem, h.leave hR⟩
  · exact hm.elim
  · exact hm.elim
  · obtain ⟨rfl, -, hcpu, hmem, hR⟩ := hm
    exact ⟨rfl, trivial, hcpu, hmem, h.leave hR⟩

/-- Two forms of a function run alike, if requests are served alike with enough fuel. -/
lemma Siblings.trace {fuel : Nat}
    (hserve : ServesEventually R ⟨k.serve fuel, k.tick⟩ fun j => k'.serve j) {f f' : Ir.Function}
    (hf : Interp.Siblings f f') {m : Machine H} {m' : Machine H'} (hm : OnHosts R m m')
    (hstop : Stopped (Interp.trace k.noting ⟨k.serve fuel, k.tick⟩ fuel f m)) :
    ∃ fuel', Matched (OnHosts R) (fun _ => True)
      (Interp.trace k.noting ⟨k.serve fuel, k.tick⟩ fuel f m)
      (Interp.trace k'.noting ⟨k'.serve fuel', k'.tick⟩ fuel' f' m') := by
  obtain ⟨n, hn⟩ := Interp.trace_eventually hserve h.tick h.noting fuel f hm hstop
  -- the other form may need more fuel for its loops
  have hfinishes : Run.Finishes (Interp.trace k'.noting ⟨k'.serve n, k'.tick⟩ · f) m'
      (Interp.trace k'.noting ⟨k'.serve n, k'.tick⟩ fuel f m') :=
    ⟨hn.stopped hstop, fuel, rfl⟩
  obtain ⟨hstop', j, hj⟩ := hf.trace hfinishes
  have hbelow : Below (Interp.trace k'.noting ⟨k'.serve n, k'.tick⟩ j f')
      (Interp.trace k'.noting ⟨k'.serve (max n j), k'.tick⟩ (max n j) f') :=
    Interp.trace_below (s := ⟨k'.serve n, k'.tick⟩) (t := ⟨k'.serve (max n j), k'.tick⟩)
      ⟨fun r => k'.serve_below (le_max_left n j) r, .refl _⟩ (le_max_right n j) f'
  refine ⟨max n j, ?_⟩
  have hj : Interp.trace k'.noting ⟨k'.serve n, k'.tick⟩ j f' m' =
      Interp.trace k'.noting ⟨k'.serve n, k'.tick⟩ fuel f m' := hj
  rw [hbelow m' (hj ▸ hstop'), hj]
  exact hn

/-- A request that is served by one host is served alike by the other one, with enough fuel. -/
theorem Siblings.serve (fuel : Nat) (r : Request) {m : Machine H} {m' : Machine H'}
    (hm : OnHosts R m m') (hstop : Stopped (k.serve fuel r m)) :
    ∃ fuel', Matched (OnHosts R) (fun _ => True) (k.serve fuel r m) (k'.serve fuel' r m') := by
  induction fuel generalizing r m m' with
  | zero => exact hstop.elim
  | succ fuel ih =>
    have hserve : ServesEventually R ⟨k.serve fuel, k.tick⟩ fun j => k'.serve j := by
      intro r m m' hm hstop
      obtain ⟨n, hn⟩ := ih r hm hstop
      exact ⟨n, _, hn, fun j hj => k'.serve_below hj r m' (hn.stopped hstop)⟩
    rw [serve_succ] at hstop ⊢
    have hsteps := (h.resolve r hm).exists_bind (f := fun code => k.enter >>= fun _ =>
        Serving.closing k.leave (Interp.trace k.noting ⟨k.serve fuel, k.tick⟩ fuel code.function))
      (g := fun n code => k'.enter >>= fun _ =>
        Serving.closing k'.leave (Interp.trace k'.noting ⟨k'.serve n, k'.tick⟩ n code.function)) ?_
    · obtain ⟨n, hn⟩ := hsteps
      exact ⟨n + 1, by rwa [serve_succ]⟩
    rintro code m₁ code' m₁' hs ⟨hcode, hm₁⟩
    rw [EStateM.bind_ok hs] at hstop
    refine (h.enter.step m₁ m₁' hm₁ trivial).exists_bind fun _ m₂ _ m₂' hs₂ hm₂ => ?_
    rw [EStateM.bind_ok hs₂] at hstop
    obtain ⟨n, hn⟩ := h.trace hserve hcode hm₂.2 (stopped_of_closing hstop)
    exact ⟨n, h.closing hn⟩

end Serving

end Dynarec
