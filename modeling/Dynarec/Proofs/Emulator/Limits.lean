import Dynarec.Proofs.Compiler.Limits
import Dynarec.Proofs.Emulator.Transparent
import Dynarec.Proofs.Interp.Trace

/-!
# Runs with larger limits

A run of guest code that no limit stops ends alike when the limits are larger: the one on the blocks
of a function, the one on the nesting of calls, and the loop budget. A run that a limit stops has the
first effects of the run with larger limits. The effects of a run are seen by tracing it: what the
processor state and memory are at its start and after each of its operations, in order.
-/

namespace Dynarec

open Dynarec.EStateM (CutShort Outlasts)
open Interp (Request OnHosts HostPart)
open Linking (Code)
open Run (Maintains)

variable {H H' α : Type}

/-! ### Hosts that serve requests -/

/-- How requests are served where a host keeps more than an emulator does: how code is found, how a
call is entered and left, how a jump back is charged, and what is noted of effects. -/
structure Serving (H : Type) where
  resolve : Request → Run Error (Machine H) Code
  enter : Run Error (Machine H) Unit
  leave : H → H
  tick : Run Error (Machine H) Unit
  noting : Cpu.State → Memory → H → H

namespace Serving

/-- Change the host at the end of a run, however it ends. -/
def closing (leave : H → H) (x : Run Error (Machine H) α) : Run Error (Machine H) α := fun m =>
  match x m with
  | .ok a m => .ok a { m with host := leave m.host }
  | .error e m => .error e { m with host := leave m.host }

/-- Serve a request of running code. -/
def serve (k : Serving H) : Nat → Request → Run Error (Machine H) UInt64
  | 0, _ => throw .outOfFuel
  | fuel + 1, request => do
    let code ← k.resolve request
    k.enter
    closing k.leave (Interp.trace k.noting ⟨k.serve fuel, k.tick⟩ fuel code.function)

/-- The steps of a way to serve outlast those of another one. -/
structure CutShort (R P : H → H' → Prop) (cut : Halt Error → Prop) (k : Serving H)
    (k' : Serving H') : Prop where
  resolve (r : Request) :
    EStateM.CutShort (OnHosts R) (HostPart P) cut (k.resolve r) (k'.resolve r)
  enter : EStateM.CutShort (OnHosts R) (HostPart P) cut k.enter k'.enter
  tick : EStateM.CutShort (OnHosts R) (HostPart P) cut k.tick k'.tick
  notes : Interp.Notes R P k.noting k'.noting
  leave {h : H} {h' : H'} : R h h' → R (k.leave h) (k'.leave h')
  leave_part {h : H} {h' : H'} : P h h' → P (k.leave h) h'
  leave_grows {h : H} {h' : H'} : P h h' → P h (k'.leave h')
  part {h : H} {h' : H'} : R h h' → P h h'

variable {R P : H → H' → Prop} {cut : Halt Error → Prop} {k : Serving H} {k' : Serving H'}

lemma after_closing (leave : H → H) (x : Run Error (Machine H) α) (m : Machine H) :
    EStateM.after (closing leave x m) =
      { EStateM.after (x m) with host := leave (EStateM.after (x m)).host } := by
  unfold closing
  cases x m <;> rfl

lemma closing_maintains {Q : H → Prop} {leave : H → H} (hleave : ∀ h, Q h → Q (leave h))
    {x : Run Error (Machine H) α} (hx : Maintains (fun m => Q m.host) x) :
    Maintains (fun m => Q m.host) (closing leave x) := by
  intro m hm
  rw [after_closing]
  exact hleave _ (hx m hm)

lemma CutShort.closing (h : CutShort R P cut k k') {x : Run Error (Machine H) α}
    {y : Run Error (Machine H') α} (hx : EStateM.CutShort (OnHosts R) (HostPart P) cut x y) :
    EStateM.CutShort (OnHosts R) (HostPart P) cut (Serving.closing k.leave x)
      (Serving.closing k'.leave y) where
  grows m := closing_maintains (fun _ => h.leave_grows) (hx.grows m)
  outlasts m m' hm := by
    have hout := hx.outlasts m m' hm
    have hafter := after_closing k'.leave y m'
    unfold Serving.closing at hafter ⊢
    generalize x m = r at hout ⊢
    generalize y m' = r' at hout hafter ⊢
    cases hout with
    | ok h₁ => exact .ok ⟨h₁.1, h₁.2.1, h.leave h₁.2.2⟩
    | error h₁ => exact .error ⟨h₁.1, h₁.2.1, h.leave h₁.2.2⟩
    | cut he h₁ =>
      refine .cut he ?_
      change P _ _
      rw [hafter]
      exact h.leave_part (h.leave_grows h₁)

/-- Serving requests maintains what the steps maintain. -/
lemma serve_maintains {Q : H → Prop} {k : Serving H}
    (hresolve : ∀ r, Maintains (fun m => Q m.host) (k.resolve r))
    (henter : Maintains (fun m => Q m.host) k.enter)
    (htick : Maintains (fun m => Q m.host) k.tick) (hleave : ∀ h, Q h → Q (k.leave h))
    (hnoting : ∀ cpu mem h, Q h → Q (k.noting cpu mem h)) (fuel : Nat) (r : Request) :
    Maintains (fun m => Q m.host) (k.serve fuel r) := by
  induction fuel generalizing r with
  | zero => exact fun _ h => h
  | succ fuel ih =>
    unfold serve
    exact (hresolve r).bind fun code => henter.bind fun _ => closing_maintains hleave <|
      Interp.trace_maintains_host hnoting ih htick fuel code.function

/-- What noting effects establishes holds when a request has been served, if the steps maintain it. -/
lemma serve_leaves {N : Machine H → Prop} {k : Serving H}
    (hresolve : ∀ r, Maintains N (k.resolve r)) (henter : Maintains N k.enter)
    (htick : Maintains N k.tick) (hleave : ∀ m, N m → N { m with host := k.leave m.host })
    (hnoting : ∀ cpu mem h, N ⟨cpu, mem, k.noting cpu mem h⟩) (fuel : Nat) (r : Request) :
    Maintains N (k.serve fuel r) := by
  induction fuel generalizing r with
  | zero => exact fun _ h => h
  | succ fuel ih =>
    unfold serve
    refine (hresolve r).bind fun code => henter.bind fun _ m hm => ?_
    rw [after_closing]
    exact hleave _ (Interp.trace_maintains hnoting ih htick fuel code.function m hm)

/-- Requests outlast each other when the steps of serving them do. -/
theorem CutShort.serve (h : CutShort R P cut k k') {fuel fuel' : Nat}
    (hfuel : Run.Enough cut fuel fuel') (r : Request) :
    EStateM.CutShort (OnHosts R) (HostPart P) cut (k.serve fuel r) (k'.serve fuel' r) := by
  induction fuel generalizing fuel' r with
  | zero =>
    exact hfuel.cutShort_zero (y := (k'.serve · r)) (fun _ _ hm => h.part hm.2.2) rfl fun m =>
      serve_maintains (fun r => (h.resolve r).grows m) (h.enter.grows m) (h.tick.grows m)
        (fun _ => h.leave_grows) (fun _ _ _ => h.notes.grows _ _) fuel' r
  | succ fuel ih =>
    cases fuel' with
    | zero =>
      rcases hfuel with h | h
      · cases h
      · cases h.1
    | succ fuel' =>
      unfold Serving.serve
      exact (h.resolve r).bind fun code => h.enter.bind fun _ => h.closing <|
        Interp.trace_cutShort h.notes ⟨ih hfuel.of_succ, h.tick⟩ (fun _ _ => h.part)
          hfuel.of_succ code.function

end Serving

namespace Emulator

/-- Leave a call, seen from the host. -/
def leaveHost (h : Host) : Host := { h with depth := h.depth - 1 }

/-- An emulator serves requests and notes nothing. -/
def serving : Serving Host := ⟨resolve, enter, leaveHost, tick, fun _ _ h => h⟩

lemma closing_leaveHost (x : Run Error Emulator UInt64) :
    Serving.closing leaveHost x = fun m =>
      match x m with
      | .ok value m => .ok value (leave m)
      | .error e m => .error e (leave m) := by
  funext m
  simp only [Serving.closing]
  cases x m <;> rfl

lemma serving_serve (fuel : Nat) : serving.serve fuel = serve fuel := by
  induction fuel with
  | zero => rfl
  | succ fuel ih =>
    funext request
    unfold Serving.serve serve
    rw [ih]
    simp only [serving, Interp.trace_nothing, closing_leaveHost]
    rfl

/-- Something is done on an emulator that leaves the processor and memory alone. -/
def Apart (act : Run Error Emulator α) : Prop :=
  ∀ m, (EStateM.after (act m)).cpu = m.cpu ∧ (EStateM.after (act m)).mem = m.mem

lemma compile_apart (pc : UInt64) : Apart (compile pc) := by
  rintro ⟨cpu, mem, ⟨compiler, depth, budget⟩⟩
  simp only [compile]
  cases Compiler.compile pc mem compiler <;> exact ⟨rfl, rfl⟩

lemma resolve_apart (r : Request) : Apart (resolve r) := by
  intro m
  cases r with
  | jump pc => exact compile_apart pc m
  | call slot =>
    simp only [resolve]
    split
    · exact ⟨rfl, rfl⟩
    · exact compile_apart _ m
    all_goals exact ⟨rfl, rfl⟩

lemma enter_apart : Apart enter := by
  rintro ⟨cpu, mem, ⟨compiler, depth, budget⟩⟩
  simp only [enter]
  split <;> exact ⟨rfl, rfl⟩

lemma tick_apart : Apart tick := by
  rintro ⟨cpu, mem, ⟨compiler, depth, _ | _ | left⟩⟩ <;> exact ⟨rfl, rfl⟩

/-! ### Larger limits -/

/-- A run has been stopped by a limit, or its bound is reached. -/
inductive AtLimit : Halt Error → Prop where
  | outOfFuel : AtLimit .outOfFuel
  | blockLimit (entry : UInt64) (limit : Nat) : AtLimit (.error (.blockLimit entry limit))
  | callDepth (depth : Nat) : AtLimit (.error (.callDepthExceeded depth))
  | budget : AtLimit (.error .budgetExhausted)

/-- A run that has been stopped so. -/
def CutOff : EStateM.Result (Halt Error) Emulator UInt64 → Prop
  | .ok _ _ => False
  | .error e _ => AtLimit e

/-- A host with larger limits that is equally deep and has no less budget left. -/
structure Larger (h h' : Host) : Prop where
  compiler : h.compiler.Wider h'.compiler
  depth : h'.depth = h.depth
  budget : Looser h.budget h'.budget

/-- No part of a host is looked at. -/
abbrev AnyPart : H → H' → Prop := fun _ _ => True

lemma compile_larger (pc : UInt64) :
    CutShort (OnHosts Larger) (HostPart AnyPart) AtLimit (compile pc) (compile pc) where
  grows _ _ _ := trivial
  outlasts := by
    rintro ⟨cpu, mem, ⟨compiler, depth, budget⟩⟩ ⟨cpu', mem', ⟨compiler', depth', budget'⟩⟩
      ⟨rfl, rfl, hcompiler, rfl, hbudget⟩
    have hcompile := Compiler.compile_wider mem' pc hcompiler
    simp only [compile]
    generalize Compiler.compile pc mem' compiler = r at hcompile
    generalize Compiler.compile pc mem' compiler' = r' at hcompile
    cases hcompile with
    | ok h₁ => exact .ok ⟨rfl, rfl, h₁, rfl, hbudget⟩
    | error h₁ => exact .error ⟨rfl, rfl, h₁, rfl, hbudget⟩
    | cut he _ =>
      obtain ⟨entry, limit, rfl⟩ := he
      exact .cut (.blockLimit entry limit) trivial

lemma resolve_larger (r : Request) :
    CutShort (OnHosts Larger) (HostPart AnyPart) AtLimit (resolve r) (resolve r) where
  grows _ _ _ := trivial
  outlasts m m' h := by
    cases r with
    | jump pc => exact (compile_larger pc).outlasts m m' h
    | call slot =>
      have hslot : m'.host.compiler.slot? slot = m.host.compiler.slot? slot := by
        obtain ⟨config, -, hconfig⟩ := h.2.2.compiler
        rw [hconfig]
        rfl
      simp only [resolve, hslot]
      split
      · exact .ok h
      · next entry _ => exact (compile_larger entry).outlasts m m' h
      · exact .error h
      · exact .error h

lemma enter_larger :
    CutShort (OnHosts Larger) (HostPart AnyPart) AtLimit enter enter where
  grows _ _ _ := trivial
  outlasts := by
    rintro ⟨cpu, mem, ⟨compiler, depth, budget⟩⟩ ⟨cpu', mem', ⟨compiler', depth', budget'⟩⟩
      ⟨rfl, rfl, hcompiler, rfl, hbudget⟩
    have hdepth : compiler.config.maxDepth ≤ compiler'.config.maxDepth := by
      obtain ⟨config, hwithin, heq⟩ := hcompiler
      rw [show compiler'.config = config from congrArg Compiler.config heq]
      exact hwithin.maxDepth
    simp only [enter]
    by_cases hlimit : compiler.config.maxDepth ≤ depth'
    · rw [if_pos hlimit]
      exact .cut (.callDepth _) trivial
    · rw [if_neg hlimit, if_neg fun h => hlimit (hdepth.trans h)]
      exact .ok ⟨rfl, rfl, hcompiler, rfl, hbudget⟩

lemma tick_larger : CutShort (OnHosts Larger) (HostPart AnyPart) AtLimit tick tick where
  grows _ _ _ := trivial
  outlasts := by
    rintro ⟨cpu, mem, ⟨compiler, depth, budget⟩⟩ ⟨cpu', mem', ⟨compiler', depth', budget'⟩⟩
      ⟨rfl, rfl, hcompiler, rfl, hbudget⟩
    rcases budget with _ | _ | n
    · rcases budget' with _ | n'
      · exact .ok ⟨rfl, rfl, hcompiler, rfl, hbudget⟩
      · obtain ⟨n, -, hn⟩ := hbudget n' rfl
        cases hn
    · exact .cut .budget trivial
    · rcases budget' with _ | n'
      · exact .ok ⟨rfl, rfl, hcompiler, rfl, fun _ h => by cases h⟩
      · obtain ⟨_, hle, heq⟩ := hbudget n' rfl
        cases heq
        rcases n' with _ | n'
        · cases hle
        · refine .ok ⟨rfl, rfl, hcompiler, rfl, fun left hleft => ?_⟩
          cases hleft
          exact ⟨n, Nat.le_of_succ_le_succ hle, rfl⟩

lemma serving_larger : serving.CutShort Larger AnyPart AtLimit serving where
  resolve := resolve_larger
  enter := enter_larger
  tick := tick_larger
  notes := ⟨fun _ _ h => h, fun _ _ h => h⟩
  leave h := ⟨h.compiler, congrArg (· - 1) h.depth, h.budget⟩
  leave_part := id
  leave_grows := id
  part _ := trivial

end Emulator

/-! ### Effects -/

/-- A host with what the processor state and memory were at the start of a run and after each of its
operations. -/
structure Tracer where
  host : Host
  effects : List (Cpu.State × Memory)

/-- A core that runs guest code and is traced. -/
abbrev Traced := Machine Tracer

namespace Traced

open Emulator (AtLimit Larger AnyPart)
open Recorded (ending)

/-- The emulator without its effects. -/
def erase (m : Traced) : Emulator := ⟨m.cpu, m.mem, m.host.host⟩

/-- Do something on the emulator, which adds no effect. -/
def untraced (act : Run Error Emulator α) : Run Error Traced α := fun m =>
  match act m.erase with
  | .ok a e => .ok a ⟨e.cpu, e.mem, ⟨e.host, m.host.effects⟩⟩
  | .error err e => .error err ⟨e.cpu, e.mem, ⟨e.host, m.host.effects⟩⟩

/-- A traced emulator serves requests as the emulator does and notes their effects. -/
def serving : Serving Tracer where
  resolve r := untraced (Emulator.resolve r)
  enter := untraced Emulator.enter
  leave h := { h with host := Emulator.leaveHost h.host }
  tick := untraced Emulator.tick
  noting cpu mem h := { h with effects := h.effects ++ [(cpu, mem)] }

/-- Run the function at an address; the effects are traced from the start of the run on. -/
def execute (fuel : Nat) (entry : UInt64) (m : Emulator) : EStateM.Result (Halt Error) Traced UInt64 :=
  serving.serve fuel (.jump entry)
    ⟨m.cpu, m.mem, ⟨⟨m.host.compiler, 0, m.host.compiler.config.loopBudget⟩, [(m.cpu, m.mem)]⟩⟩

/-- What outlasts an emulator outlasts it while effects are kept. -/
lemma untraced_cutShort {R : Host → Host → Prop} {cut : Halt Error → Prop}
    {x y : Run Error Emulator α} (h : CutShort (OnHosts R) (HostPart AnyPart) cut x y) :
    CutShort (OnHosts fun t t' : Tracer => R t.host t'.host ∧ t'.effects = t.effects)
      (HostPart fun t t' : Tracer => t.effects <+: t'.effects) cut (untraced x) (untraced y) where
  grows m m' hm := by
    change m.host.effects <+: (EStateM.after (untraced y m')).host.effects
    unfold untraced
    generalize y (erase m') = r
    cases r <;> exact hm
  outlasts := by
    rintro ⟨cpu, mem, ⟨host, effects⟩⟩ ⟨cpu', mem', ⟨host', effects'⟩⟩ ⟨rfl, rfl, hR, rfl⟩
    have hout := h.outlasts ⟨cpu', mem', host⟩ ⟨cpu', mem', host'⟩ ⟨rfl, rfl, hR⟩
    simp only [untraced, erase]
    generalize x ⟨cpu', mem', host⟩ = r at hout
    generalize y ⟨cpu', mem', host'⟩ = r' at hout
    cases hout with
    | ok h₁ => exact .ok ⟨h₁.1, h₁.2.1, h₁.2.2, rfl⟩
    | error h₁ => exact .error ⟨h₁.1, h₁.2.1, h₁.2.2, rfl⟩
    | cut he _ =>
      refine .cut he ?_
      cases r' <;> exact List.prefix_refl _

lemma serving_larger :
    serving.CutShort (fun t t' => Larger t.host t'.host ∧ t'.effects = t.effects)
      (fun t t' => t.effects <+: t'.effects) AtLimit serving where
  resolve r := untraced_cutShort (Emulator.resolve_larger r)
  enter := untraced_cutShort Emulator.enter_larger
  tick := untraced_cutShort Emulator.tick_larger
  notes := ⟨fun _ _ h => ⟨h.1, congrArg (· ++ _) h.2⟩, fun _ _ h => h.trans (List.prefix_append _ _)⟩
  leave h := ⟨Emulator.serving_larger.leave h.1, h.2⟩
  leave_part := id
  leave_grows := id
  part h := h.2 ▸ List.prefix_refl _

/-- Doing something that adds no effect is doing it on the emulator. -/
lemma untraced_erase (x : Run Error Emulator α) :
    CutShort (OnHosts fun (t : Tracer) (h : Host) => h = t.host) (HostPart AnyPart) (fun _ => False)
      (untraced x) x where
  grows _ _ _ := trivial
  outlasts := by
    rintro ⟨cpu, mem, ⟨host, effects⟩⟩ ⟨cpu', mem', host'⟩ ⟨rfl, rfl, rfl⟩
    simp only [untraced, erase]
    generalize x ⟨cpu', mem', host'⟩ = r
    cases r with
    | ok a m => exact .ok ⟨rfl, rfl, rfl⟩
    | error e m => exact .error ⟨rfl, rfl, rfl⟩

/-- Serving requests with effects is serving them. -/
lemma serving_erase :
    serving.CutShort (fun t h => h = t.host) AnyPart (fun _ => False) Emulator.serving where
  resolve r := untraced_erase (Emulator.resolve r)
  enter := untraced_erase Emulator.enter
  tick := untraced_erase Emulator.tick
  notes := ⟨fun _ _ h => h, fun _ _ h => h⟩
  leave h := congrArg Emulator.leaveHost h
  leave_part := id
  leave_grows := id
  part _ := trivial

/-! ### Where effects end -/

/-- The last effect is what the processor state and memory are now. -/
def Current (m : Traced) : Prop := m.host.effects.getLast? = some (m.cpu, m.mem)

lemma untraced_current {act : Run Error Emulator α} (h : Emulator.Apart act) :
    Maintains Current (untraced act) := by
  intro m hm
  obtain ⟨hcpu, hmem⟩ := h (erase m)
  unfold untraced
  generalize act (erase m) = r at hcpu hmem
  cases r <;> exact hm.trans (congrArg some (congrArg₂ Prod.mk hcpu.symm hmem.symm))

lemma serving_current (fuel : Nat) (r : Request) : Maintains Current (serving.serve fuel r) :=
  Serving.serve_leaves (fun r => untraced_current (Emulator.resolve_apart r))
    (untraced_current Emulator.enter_apart) (untraced_current Emulator.tick_apart) (fun _ h => h)
    (fun _ _ _ => List.getLast?_concat) fuel r

/-! ### Runs of an emulator -/

/-- The effects of a run. -/
def effects (fuel : Nat) (entry : UInt64) (m : Emulator) : List (Cpu.State × Memory) :=
  (EStateM.after (execute fuel entry m)).host.effects

/-- A traced run ends as the run that is not traced, in what its last effect is. -/
lemma execute_spec (fuel : Nat) (entry : UInt64) (m : Emulator) :
    ending (execute fuel entry m) = ending (Emulator.execute fuel entry m) ∧
      (effects fuel entry m).getLast? = some (ending (Emulator.execute fuel entry m)).2 := by
  have herase := (serving_erase.serve (.inl (Eq.refl fuel)) (.jump entry)).outlasts
    ⟨m.cpu, m.mem, ⟨⟨m.host.compiler, 0, m.host.compiler.config.loopBudget⟩, [(m.cpu, m.mem)]⟩⟩
    ⟨m.cpu, m.mem, ⟨m.host.compiler, 0, m.host.compiler.config.loopBudget⟩⟩ ⟨rfl, rfl, rfl⟩
  have hcurrent : Current (EStateM.after (execute fuel entry m)) :=
    serving_current fuel (.jump entry) _ rfl
  rw [Emulator.serving_serve] at herase
  change Outlasts _ _ _ (execute fuel entry m) (Emulator.execute fuel entry m) at herase
  unfold effects
  generalize execute fuel entry m = r at herase hcurrent
  generalize Emulator.execute fuel entry m = r' at herase
  cases herase with
  | ok h | error h =>
    obtain ⟨hcpu, hmem, -⟩ := h
    refine ⟨by simp only [ending, hcpu, hmem], ?_⟩
    simp only [ending, hcpu, hmem]
    exact hcurrent
  | cut h => exact h.elim

end Traced

namespace Emulator

open Recorded (ending)

/-- A core that has compiled nothing yet. -/
def boot (cpu : Cpu.State) (mem : Memory) (config : Config) : Emulator :=
  { start mem .interpreter config with cpu }

end Emulator

end Dynarec
