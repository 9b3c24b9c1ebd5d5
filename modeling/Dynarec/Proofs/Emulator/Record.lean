import Dynarec.Proofs.Compiler.Cache
import Dynarec.Proofs.Emulator.Serve
import Dynarec.Proofs.Interp.Observe

/-!
# Recorded runs

An emulator that keeps a record: the words that are fetched when functions are built, what memory is
after every store, and the memory that the function of each address was last built from. The record
does not change what it does. Recorded runs are compared with plain ones of other emulators here; a
family of relations between what the two compilers hold says when they go in lockstep.
-/

namespace Dynarec

/-- What is recorded: the addresses of the words that were fetched, what memory was after the stores,
and the memory that the function of each address was last built from. -/
structure Record where
  fetched : List UInt64
  stored : List Memory
  origin : UInt64 → Memory

/-- Record that the function of an address is built. -/
def Record.build (r : Record) (a : UInt64) (mem : Memory) (c : Compiler) : Record :=
  ⟨Compiler.fetched a mem c ++ r.fetched, r.stored, fun b => if b = a then mem else r.origin b⟩

/-- Record that memory is stored to. -/
def Record.store (r : Record) (mem : Memory) : Record := { r with stored := mem :: r.stored }

/-- A host with its record. -/
structure Recorder where
  host : Host
  record : Record

/-- A core that runs guest code and is recorded. -/
abbrev Recorded := Machine Recorder

namespace Recorded

open Interp (Request)
open Linking (Code)

variable {α : Type}

/-- The emulator without the record. -/
def erase (m : Recorded) : Emulator := ⟨m.cpu, m.mem, m.host.host⟩

/-- An emulator with a record. -/
def withRecord (m : Emulator) (r : Record) : Recorded := ⟨m.cpu, m.mem, ⟨m.host, r⟩⟩

/-- Do something on the emulator and leave the record alone. -/
def plainly (act : Run Error Emulator α) : Run Error Recorded α := fun m =>
  match act m.erase with
  | .ok a e => .ok a (withRecord e m.host.record)
  | .error err e => .error err (withRecord e m.host.record)

/-- The address of the function that has to be built for a request. -/
def missing (c : Compiler) (request : Request) : Option UInt64 :=
  let uncompiled (a : UInt64) := if (c.compiled? a).isSome then none else some a
  match request with
  | .jump pc => uncompiled pc
  | .call slot =>
    match c.slot? slot with
    | some (.trampoline entry) => uncompiled entry
    | _ => none

/-- Record what has to be built for a request. -/
def noteBuild (request : Request) (m : Recorded) : Recorded :=
  match missing m.host.host.compiler request with
  | some a =>
    withRecord m.erase (m.host.record.build a m.mem m.host.host.compiler)
  | none => m

/-- The code that a request asks to be run. -/
def resolve (request : Request) : Run Error Recorded Code := fun m =>
  plainly (Emulator.resolve request) (m.noteBuild request)

/-- Record what memory is. -/
def noteStore (mem : Memory) (h : Recorder) : Recorder := ⟨h.host, h.record.store mem⟩

/-- Leave a call. -/
def leave (m : Recorded) : Recorded := withRecord (Emulator.leave m.erase) m.host.record

/-- Serve a request of running code. -/
def serve : Nat → Request → Run Error Recorded UInt64
  | 0, _ => throw .outOfFuel
  | fuel + 1, request => do
    let code ← resolve request
    plainly Emulator.enter
    fun m =>
      match Interp.observe noteStore ⟨serve fuel, plainly Emulator.tick⟩ fuel code.function m with
      | .ok value m => .ok value (leave m)
      | .error e m => .error e (leave m)

/-- Run the function at an address; what is fetched and stored is recorded anew. -/
def execute (fuel : Nat) (entry : UInt64) : Run Error Recorded UInt64 := fun m =>
  let c := m.host.host.compiler
  serve fuel (.jump entry)
    ⟨m.cpu, m.mem, ⟨⟨c, 0, c.config.loopBudget⟩, ⟨[], [], m.host.record.origin⟩⟩⟩

/-! ### Steps -/

/-- Run a function that has been found for a request. -/
def runCode (fuel : Nat) (code : Code) : Run Error Recorded UInt64 := fun m =>
  if m.host.host.compiler.config.maxDepth ≤ m.host.host.depth then
    .error (.error (.callDepthExceeded m.host.host.compiler.config.maxDepth)) m
  else
    match Interp.observe noteStore ⟨serve fuel, plainly Emulator.tick⟩ fuel code.function
        (withRecord m.erase.deeper m.host.record) with
    | .ok value m => .ok value (leave m)
    | .error e m => .error e (leave m)

lemma serve_succ (fuel : Nat) (request : Request) :
    serve (fuel + 1) request = (do runCode fuel (← resolve request)) := by
  funext m
  rw [serve]
  cases hr : resolve request m with
  | error e m₁ => exact (EStateM.bind_error hr).trans (EStateM.bind_error hr).symm
  | ok code m₁ =>
    refine (EStateM.bind_ok hr).trans (Eq.trans ?_ (EStateM.bind_ok hr).symm)
    obtain ⟨cpu, mem, ⟨⟨compiler, depth, budget⟩, record⟩⟩ := m₁
    unfold runCode
    dsimp only
    by_cases hdepth : compiler.config.maxDepth ≤ depth
    · rw [if_pos hdepth]
      exact EStateM.bind_error (by simp only [plainly, erase, Emulator.enter, hdepth, if_true]; rfl)
    · rw [if_neg hdepth]
      exact EStateM.bind_ok (by simp only [plainly, erase, Emulator.enter, hdepth, if_false]; rfl)

/-! ### Lockstep -/

/-- A recorded emulator and a plain one with the same core, memory, limits, nesting and budget, what
their compilers hold being related. -/
structure Same (P : Memory → Record → Compiler → Compiler → Prop) (s : Recorded) (t : Emulator) :
    Prop where
  cpu : t.cpu = s.cpu
  mem : t.mem = s.mem
  depth : t.host.depth = s.host.host.depth
  budget : t.host.budget = s.host.host.budget
  config : t.host.compiler.config = s.host.host.compiler.config
  held : P s.mem s.host.record s.host.host.compiler t.host.compiler

/-- Requests are related when they jump to one address, or call through related slots. -/
inductive Related (K : Nat → Nat → Prop) : Request → Request → Prop where
  | jump (target : UInt64) : Related K (.jump target) (.jump target)
  | call {slot slot' : Nat} : K slot slot' → Related K (.call slot) (.call slot')

/-- One function, linked so that its calls go through related slots. -/
def Aligned (K : Nat → Nat → Prop) (f f' : Ir.Function) : Prop :=
  ∃ (g : Ir.Function) (ρ ρ' : Nat → Nat), f = g.relocate ρ ∧ f' = g.relocate ρ' ∧
    g.body.All (fun ops => ∀ dst n, (Ir.Op.call dst n).Within ops → K (ρ n) (ρ' n)) fun _ => True

/-- A family of relations between what two compilers hold, with the slots that are related in each,
that is kept when memory is stored to and when requests are resolved. What is resolved is one function
for both, whose slots are related in a finer relation of the family. -/
structure Tracking {ι : Type} (good : Record → Prop) (E : Halt Error → Prop)
    (P : ι → Memory → Record → Compiler → Compiler → Prop) (K : ι → Nat → Nat → Prop) : Prop where
  store {i : ι} {addr value : UInt64} {size : AccessSize} {mem mem' : Memory} {r : Record}
    {c c' : Compiler} : P i mem r c c' → Memory.write addr size value mem = .ok () mem' →
    good (r.store mem') → P i mem' (r.store mem') c c'
  resolve {i : ι} {request request' : Request} {s : Recorded} {t : Emulator} :
    Related (K i) request request' → Same (P i) s t →
    good (EStateM.after (resolve request s)).host.record →
    Run.MatchedBy (fun code s₁ code' t₁ => ∃ j, Same (P j) s₁ t₁ ∧
      (∀ mem r c c', P j mem r c c' → P i mem r c c') ∧ Aligned (K j) code.function code'.function)
      (Same (P i)) E (resolve request s) (Emulator.resolve request' t)
  back_store {r : Record} {mem : Memory} : good (r.store mem) → good r
  back_build {r : Record} {a : UInt64} {mem : Memory} {c : Compiler} : good (r.build a mem c) → good r
  memory (e : Memory.Error) : E (.error (.memory e))
  fellOffEnd (entry : UInt64) : E (.error (.invariant (.fellOffEnd entry)))
  callDepth (limit : Nat) : E (.error (.callDepthExceeded limit))
  budget : E (.error .budgetExhausted)
  outOfFuel : E .outOfFuel

variable {ι : Type} {good : Record → Prop} {E : Halt Error → Prop}
  {P : ι → Memory → Record → Compiler → Compiler → Prop} {K : ι → Nat → Nat → Prop}

/-- Recorded emulators whose record is good. -/
abbrev Good (good : Record → Prop) : Recorded → Prop := fun m => good m.host.record

lemma Same.imp {P Q : Memory → Record → Compiler → Compiler → Prop} {s : Recorded} {t : Emulator}
    (h : Same P s t) (himp : ∀ mem r c c', P mem r c c' → Q mem r c c') : Same Q s t :=
  ⟨h.cpu, h.mem, h.depth, h.budget, h.config, himp _ _ _ _ h.held⟩

lemma Tracking.coupling (h : Tracking good E P K) (i : ι) :
    Interp.Coupling (fun r : Recorder => good r.record) (Same (P i)) E noteStore fun _ h => h where
  cpu hs := hs.cpu
  mem hs := hs.mem
  write hs _ := ⟨rfl, hs.mem, hs.depth, hs.budget, hs.config, hs.held⟩
  store hs hwrite hgood :=
    ⟨hs.cpu, rfl, hs.depth, hs.budget, hs.config, h.store hs.held hwrite hgood⟩
  back hgood := h.back_store hgood
  memory := h.memory
  fellOffEnd := h.fellOffEnd
  outOfFuel := h.outOfFuel

lemma Tracking.tick (h : Tracking good E P K) (i : ι) :
    Run.Lockstep (Good good) (Same (P i)) E (plainly Emulator.tick) Emulator.tick := by
  constructor
  · rintro ⟨cpu, mem, ⟨⟨compiler, depth, _ | _ | _⟩, record⟩⟩ hgood <;> exact hgood
  · rintro ⟨cpu, mem, ⟨⟨compiler, depth, budget⟩, record⟩⟩
      ⟨cpu', mem', ⟨compiler', depth', budget'⟩⟩ ⟨rfl, rfl, rfl, hbudget, hconfig, hheld⟩ _
    dsimp only at hbudget
    subst hbudget
    rcases budget' with _ | _ | _
    · exact ⟨rfl, rfl, rfl, rfl, rfl, hconfig, hheld⟩
    · exact ⟨rfl, h.budget, rfl, rfl, rfl, rfl, hconfig, hheld⟩
    · exact ⟨rfl, rfl, rfl, rfl, rfl, hconfig, hheld⟩

lemma record_plainly (act : Run Error Emulator α) (m : Recorded) :
    (EStateM.after (plainly act m)).host.record = m.host.record := by
  unfold plainly
  cases act m.erase <;> rfl

lemma Tracking.back_resolve (h : Tracking good E P K) (request : Request) (m : Recorded)
    (hgood : Good good (EStateM.after (Recorded.resolve request m))) : Good good m := by
  unfold Good at hgood ⊢
  rw [Recorded.resolve, record_plainly] at hgood
  unfold noteBuild at hgood
  split at hgood
  · exact h.back_build hgood
  · exact hgood

lemma back_tick (m : Recorded)
    (hgood : Good good (EStateM.after (plainly Emulator.tick m))) : Good good m := by
  unfold Good at hgood ⊢
  rwa [record_plainly] at hgood

lemma Tracking.back_runCode (h : Tracking good E P K) {fuel : Nat}
    (hserve : ∀ request m, Good good (EStateM.after (serve fuel request m)) → Good good m)
    (code : Code) (m : Recorded) (hgood : Good good (EStateM.after (runCode fuel code m))) :
    Good good m := by
  unfold runCode at hgood
  split at hgood
  · exact hgood
  · have hback : Interp.Services.Backward (fun r : Recorder => good r.record) noteStore
        ⟨serve fuel, plainly Emulator.tick⟩ := ⟨h.back_store, hserve _ _, back_tick _⟩
    refine Interp.observe_back hback fuel code.function (withRecord m.erase.deeper m.host.record) ?_
    generalize Interp.observe noteStore ⟨serve fuel, plainly Emulator.tick⟩ fuel code.function
      (withRecord m.erase.deeper m.host.record) = r at hgood ⊢
    cases r <;> exact hgood

lemma Tracking.back_serve (h : Tracking good E P K) (fuel : Nat) (request : Request) (m : Recorded)
    (hgood : Good good (EStateM.after (serve fuel request m))) : Good good m := by
  induction fuel generalizing request m with
  | zero => exact hgood
  | succ fuel ih =>
    rw [serve_succ] at hgood
    apply h.back_resolve request
    cases hr : Recorded.resolve request m with
    | error e m₁ => rwa [EStateM.bind_error hr] at hgood
    | ok code m₁ =>
      rw [EStateM.bind_ok hr] at hgood
      exact h.back_runCode ih code m₁ hgood

variable {fuel : Nat}

/-- How code runs once it is found, when the requests that it makes are served in lockstep. -/
lemma Tracking.runCode_lockstep {j : ι} (h : Tracking good E P K) {code code' : Code}
    (hserve : ∀ request request', Related (K j) request request' →
      Run.Lockstep (Good good) (Same (P j)) E (serve fuel request) (Emulator.serve fuel request'))
    (hcode : Aligned (K j) code.function code'.function) :
    Run.Lockstep (Good good) (Same (P j)) E (runCode fuel code) (Emulator.runCode fuel code') := by
  obtain ⟨f, ρ, ρ', hf, hf', hcalls⟩ := hcode
  have hservices : Interp.Services.Lockstep (fun r : Recorder => good r.record) (Same (P j)) E
      (fun n => K j (ρ n) (ρ' n)) ρ ρ' ⟨serve fuel, plainly Emulator.tick⟩
      ⟨Emulator.serve fuel, Emulator.tick⟩ :=
    ⟨fun n hn => hserve _ _ (.call hn), fun target => hserve _ _ (.jump target), h.tick j⟩
  have hinvoke := (h.coupling j).observe hservices fuel hcalls
  rw [← hf, ← hf', Interp.observe_nothing] at hinvoke
  refine ⟨h.back_runCode (fun _ m => h.back_serve fuel _ m) code, fun s t hst hgood => ?_⟩
  have hlimit := congrArg Config.maxDepth hst.config
  unfold runCode at hgood ⊢
  unfold Emulator.runCode
  rw [hlimit, hst.depth]
  split
  · exact ⟨rfl, h.callDepth _, hst⟩
  · next hdepth =>
    rw [if_neg hdepth] at hgood
    have hdeeper : Same (P j) (withRecord s.erase.deeper s.host.record) t.deeper :=
      ⟨hst.cpu, hst.mem, congrArg (· + 1) hst.depth, hst.budget, hst.config, hst.held⟩
    have hstep := hinvoke.step _ _ hdeeper
    have hleave : ∀ {s : Recorded} {t : Emulator}, Same (P j) s t →
        Same (P j) (leave s) (Emulator.leave t) := fun hst =>
      ⟨hst.cpu, hst.mem, congrArg (· - 1) hst.depth, hst.budget, hst.config, hst.held⟩
    generalize Interp.observe noteStore ⟨serve fuel, plainly Emulator.tick⟩ fuel code.function
      (withRecord s.erase.deeper s.host.record) = r at hgood hstep
    generalize Interp.invoke ⟨Emulator.serve fuel, Emulator.tick⟩ fuel code'.function t.deeper = r'
      at hstep
    rcases r with ⟨a, s'⟩ | ⟨e, s'⟩ <;> rcases r' with ⟨b, t'⟩ | ⟨e', t'⟩
    · obtain ⟨hab, hst'⟩ := hstep hgood
      exact ⟨hab, hleave hst'⟩
    · exact (hstep hgood).elim
    · exact (hstep hgood).elim
    · obtain ⟨he, hE, hst'⟩ := hstep hgood
      exact ⟨he, hE, hleave hst'⟩

/-- Related requests are served in lockstep. -/
theorem Tracking.serve_lockstep (h : Tracking good E P K) (fuel : Nat) (i : ι) {request request' : Request}
    (hrequest : Related (K i) request request') :
    Run.Lockstep (Good good) (Same (P i)) E (serve fuel request)
      (Emulator.serve fuel request') := by
  induction fuel generalizing i request request' with
  | zero => exact Run.lockstep_throw h.outOfFuel
  | succ fuel ih =>
    refine ⟨h.back_serve (fuel + 1) request, fun s t hst hgood => ?_⟩
    rw [serve_succ] at hgood ⊢
    rw [Emulator.serve_succ]
    have hresolved : Good good (EStateM.after (Recorded.resolve request s)) := by
      cases hr : Recorded.resolve request s with
      | error e s₁ => rwa [EStateM.bind_error hr] at hgood
      | ok code s₁ =>
        rw [EStateM.bind_ok hr] at hgood
        exact h.back_runCode (fun _ m => h.back_serve fuel _ m) code s₁ hgood
    apply (h.resolve hrequest hst hresolved).bind
    rintro code s₁ code' t₁ hr ⟨j, hst₁, himp, hcode⟩
    rw [EStateM.bind_ok hr] at hgood
    have hrun := (h.runCode_lockstep (fun _ _ => ih j) hcode).step s₁ t₁ hst₁ hgood
    generalize runCode fuel code s₁ = r at hrun
    generalize Emulator.runCode fuel code' t₁ = r' at hrun
    rcases r with ⟨a, s'⟩ | ⟨e, s'⟩ <;> rcases r' with ⟨b, t'⟩ | ⟨e', t'⟩
    · exact ⟨hrun.1, hrun.2.imp himp⟩
    · exact hrun.elim
    · exact hrun.elim
    · exact ⟨hrun.1, hrun.2.1, hrun.2.2.imp himp⟩

end Recorded

end Dynarec
