import Dynarec.Proofs.Compiler.Tuning
import Dynarec.Proofs.Emulator.Budget
import Dynarec.Proofs.Emulator.Siblings

/-!
# Runs with other tuning

Whether chains of blocks are merged, and how many slots there are at the start, does not show in a run
of guest code: it ends with the same value or error, in the same processor state and memory, and as
many jumps back have been charged. The jumps back of a run are counted by a host that keeps their
number beside the emulator.
-/

namespace Dynarec

open Interp (Request OnHosts)
open Linking (Code Slot)
open Run (Lockstep Matched MatchedBy Stopped)

variable {α : Type}

namespace Emulator

/-! ### Steps of an emulator -/

/-- Hosts that are equally deep and have the same budget left, with compilers tuned apart. -/
structure Tuned (h h' : Host) : Prop where
  compiler : Compiler.Tuned h.compiler h'.compiler
  depth : h'.depth = h.depth
  budget : h'.budget = h.budget

/-- Code for the same function is found. -/
abbrev FoundAlike :
    EStateM.Result (Halt Error) Emulator Code → EStateM.Result (Halt Error) Emulator Code → Prop :=
  MatchedBy (fun code s code' t => Compiler.SameCode code code' ∧ OnHosts Tuned s t) (OnHosts Tuned)
    fun _ => True

variable {m m' : Emulator}

lemma compile_tuned (pc : UInt64) (h : OnHosts Tuned m m') :
    FoundAlike (compile pc m) (compile pc m') := by
  obtain ⟨cpu, mem, ⟨compiler, depth, budget⟩⟩ := m
  obtain ⟨cpu', mem', ⟨compiler', depth', budget'⟩⟩ := m'
  obtain ⟨rfl, rfl, hcompiler, rfl, rfl⟩ := h
  have hcompile := hcompiler.compile pc mem'
  simp only [compile]
  generalize Compiler.compile pc mem' compiler = r at hcompile
  generalize Compiler.compile pc mem' compiler' = r' at hcompile
  cases hcompile with
  | ok hsame h₁ => exact ⟨hsame, rfl, rfl, h₁, rfl, rfl⟩
  | error h₁ => exact ⟨rfl, trivial, rfl, rfl, h₁, rfl, rfl⟩

lemma resolve_tuned (r : Request) (h : OnHosts Tuned m m') :
    FoundAlike (resolve r m) (resolve r m') := by
  cases r with
  | jump pc => exact compile_tuned pc h
  | call slot =>
    have hslot := h.2.2.compiler.slot? slot
    simp only [resolve]
    generalize m.host.compiler.slot? slot = o at hslot ⊢
    generalize m'.host.compiler.slot? slot = o' at hslot ⊢
    cases hslot with
    | trampoline entry => exact compile_tuned entry h
    | compiled entry hsame => exact ⟨hsame, h⟩
    | unused ho ho' =>
      -- an unused slot is vacant or past the end of its table, perhaps of one table only
      rcases o with _ | e <;> rcases o' with _ | e'
      · exact ⟨rfl, trivial, h⟩
      · rw [ho' e' rfl]
        exact ⟨rfl, trivial, h⟩
      · rw [ho e rfl]
        exact ⟨rfl, trivial, h⟩
      · rw [ho e rfl, ho' e' rfl]
        exact ⟨rfl, trivial, h⟩

lemma enter_tuned : Lockstep (fun _ => True) (OnHosts Tuned) (fun _ => True) enter enter where
  back _ _ := trivial
  step := by
    rintro ⟨cpu, mem, ⟨compiler, depth, budget⟩⟩ ⟨cpu', mem', ⟨compiler', depth', budget'⟩⟩
      ⟨rfl, rfl, hcompiler, rfl, rfl⟩ -
    have hlimit : compiler'.config.maxDepth = compiler.config.maxDepth := hcompiler.limits.maxDepth
    simp only [enter, hlimit]
    split
    · exact ⟨rfl, trivial, rfl, rfl, hcompiler, rfl, rfl⟩
    · exact ⟨rfl, rfl, rfl, hcompiler, rfl, rfl⟩

lemma tick_tuned : Lockstep (fun _ => True) (OnHosts Tuned) (fun _ => True) tick tick where
  back _ _ := trivial
  step := by
    rintro ⟨cpu, mem, ⟨compiler, depth, budget⟩⟩ ⟨cpu', mem', ⟨compiler', depth', budget'⟩⟩
      ⟨rfl, rfl, hcompiler, rfl, rfl⟩ -
    rcases budget' with _ | _ | left
    · exact ⟨rfl, rfl, rfl, hcompiler, rfl, rfl⟩
    · exact ⟨rfl, trivial, rfl, rfl, hcompiler, rfl, rfl⟩
    · exact ⟨rfl, rfl, rfl, hcompiler, rfl, rfl⟩

end Emulator

/-! ### Counting jumps back -/

/-- A host with the number of jumps back that have been charged. -/
structure Meter where
  host : Host
  charged : Nat

/-- A core that runs guest code and counts the jumps back. -/
abbrev Metered := Machine Meter

namespace Metered

open Emulator (Tuned AnyPart)
open Recorded (ending)

/-- The emulator without its count. -/
def erase (m : Metered) : Emulator := ⟨m.cpu, m.mem, m.host.host⟩

/-- Do something on the emulator that counts as some jumps back, if it succeeds. -/
def counting (n : Nat) (act : Run Error Emulator α) : Run Error Metered α := fun m =>
  match act m.erase with
  | .ok a e => .ok a ⟨e.cpu, e.mem, ⟨e.host, m.host.charged + n⟩⟩
  | .error err e => .error err ⟨e.cpu, e.mem, ⟨e.host, m.host.charged⟩⟩

/-- A metered emulator serves requests as the emulator does and counts its charges. -/
def serving : Serving Meter where
  resolve r := counting 0 (Emulator.resolve r)
  enter := counting 0 Emulator.enter
  leave h := { h with host := Emulator.leaveHost h.host }
  tick := counting 1 Emulator.tick
  noting _ _ h := h

/-- Run the function at an address; the jumps back are counted from the start of the run on. -/
def execute (fuel : Nat) (entry : UInt64) (m : Emulator) :
    EStateM.Result (Halt Error) Metered UInt64 :=
  serving.serve fuel (.jump entry)
    ⟨m.cpu, m.mem, ⟨⟨m.host.compiler, 0, m.host.compiler.config.loopBudget⟩, 0⟩⟩

/-- The jumps back that are charged in a run. -/
def charged (fuel : Nat) (entry : UInt64) (m : Emulator) : Nat :=
  (EStateM.after (execute fuel entry m)).host.charged

/-- Doing something that counts is doing it on the emulator. -/
lemma counting_erase (n : Nat) (x : Run Error Emulator α) :
    EStateM.CutShort (OnHosts fun (t : Meter) (h : Host) => h = t.host)
      (Interp.HostPart AnyPart) (fun _ => False) (counting n x) x where
  grows _ _ _ := trivial
  outlasts := by
    rintro ⟨cpu, mem, ⟨host, charged⟩⟩ ⟨cpu', mem', host'⟩ ⟨rfl, rfl, rfl⟩
    simp only [counting, erase]
    cases x ⟨cpu', mem', host'⟩ with
    | ok a m => exact .ok ⟨rfl, rfl, rfl⟩
    | error e m => exact .error ⟨rfl, rfl, rfl⟩

/-- Serving requests with a count is serving them. -/
lemma serving_erase :
    serving.CutShort (fun t h => h = t.host) AnyPart (fun _ => False) Emulator.serving where
  resolve r := counting_erase 0 (Emulator.resolve r)
  enter := counting_erase 0 Emulator.enter
  tick := counting_erase 1 Emulator.tick
  notes := ⟨fun _ _ h => h, fun _ _ h => h⟩
  leave h := congrArg Emulator.leaveHost h
  leave_part := id
  leave_grows := id
  part _ := trivial

/-- A metered run ends as the run that is not metered. -/
lemma ending_execute (fuel : Nat) (entry : UInt64) (m : Emulator) :
    ending (execute fuel entry m) = ending (Emulator.execute fuel entry m) := by
  have herase := (serving_erase.serve (.inl (Eq.refl fuel)) (.jump entry)).outlasts
    ⟨m.cpu, m.mem, ⟨⟨m.host.compiler, 0, m.host.compiler.config.loopBudget⟩, 0⟩⟩
    ⟨m.cpu, m.mem, ⟨m.host.compiler, 0, m.host.compiler.config.loopBudget⟩⟩ ⟨rfl, rfl, rfl⟩
  rw [Emulator.serving_serve] at herase
  change EStateM.Outlasts _ _ _ (execute fuel entry m) (Emulator.execute fuel entry m) at herase
  generalize execute fuel entry m = r at herase
  generalize Emulator.execute fuel entry m = r' at herase
  cases herase with
  | ok h | error h =>
    obtain ⟨hcpu, hmem, -⟩ := h
    simp only [ending, hcpu, hmem]
  | cut h => exact h.elim

/-! ### Steps that are counted -/

/-- Hosts with compilers tuned apart that have charged as many jumps back. -/
abbrev TunedMeter (t t' : Meter) : Prop := Tuned t.host t'.host ∧ t'.charged = t.charged

/-- What goes in lockstep on emulators goes in lockstep while it is counted. -/
lemma counting_tuned (n : Nat) {x : Run Error Emulator α}
    (h : Lockstep (fun _ => True) (OnHosts Tuned) (fun _ => True) x x) :
    Lockstep (fun _ => True) (OnHosts TunedMeter) (fun _ => True) (counting n x) (counting n x) where
  back _ _ := trivial
  step := by
    rintro ⟨cpu, mem, ⟨host, charged⟩⟩ ⟨cpu', mem', ⟨host', charged'⟩⟩ ⟨rfl, rfl, hhost, rfl⟩ -
    have hx := h.step ⟨cpu', mem', host⟩ ⟨cpu', mem', host'⟩ ⟨rfl, rfl, hhost⟩ trivial
    simp only [counting, erase]
    generalize x ⟨cpu', mem', host⟩ = r at hx
    generalize x ⟨cpu', mem', host'⟩ = r' at hx
    rcases r with ⟨a, s⟩ | ⟨e, s⟩ <;> rcases r' with ⟨b, t⟩ | ⟨e', t⟩
    · obtain ⟨rfl, hcpu, hmem, hhost⟩ := hx
      exact ⟨rfl, hcpu, hmem, hhost, rfl⟩
    · exact hx.elim
    · exact hx.elim
    · obtain ⟨rfl, -, hcpu, hmem, hhost⟩ := hx
      exact ⟨rfl, trivial, hcpu, hmem, hhost, rfl⟩

lemma resolve_tuned (r : Request) {m m' : Metered} (h : OnHosts TunedMeter m m') :
    MatchedBy (fun (code : Code) s (code' : Code) t =>
      Compiler.SameCode code code' ∧ OnHosts TunedMeter s t) (OnHosts TunedMeter) (fun _ => True)
      (serving.resolve r m) (serving.resolve r m') := by
  obtain ⟨cpu, mem, ⟨host, charged⟩⟩ := m
  obtain ⟨cpu', mem', ⟨host', charged'⟩⟩ := m'
  obtain ⟨rfl, rfl, hhost, rfl⟩ := h
  have hr : Emulator.FoundAlike (Emulator.resolve r ⟨cpu', mem', host⟩)
      (Emulator.resolve r ⟨cpu', mem', host'⟩) := Emulator.resolve_tuned r ⟨rfl, rfl, hhost⟩
  simp only [serving, counting, erase]
  generalize Emulator.resolve r ⟨cpu', mem', host⟩ = x at hr
  generalize Emulator.resolve r ⟨cpu', mem', host'⟩ = x' at hr
  rcases x with ⟨code, s⟩ | ⟨e, s⟩ <;> rcases x' with ⟨code', t⟩ | ⟨e', t⟩
  · obtain ⟨hsame, hcpu, hmem, hhost⟩ := hr
    exact ⟨hsame, hcpu, hmem, hhost, rfl⟩
  · exact hr.elim
  · exact hr.elim
  · obtain ⟨rfl, -, hcpu, hmem, hhost⟩ := hr
    exact ⟨rfl, trivial, hcpu, hmem, hhost, rfl⟩

lemma serving_tuned : Serving.Siblings TunedMeter serving serving where
  resolve r _ _ h := resolve_tuned r h
  enter := counting_tuned 0 Emulator.enter_tuned
  tick := counting_tuned 1 Emulator.tick_tuned
  leave h := ⟨⟨h.1.compiler, congrArg (· - 1) h.1.depth, h.1.budget⟩, h.2⟩
  noting _ _ _ _ h := h

/-- A metered run that stops stops with other tuning as well, with enough fuel; it ends alike and as
many jumps back have been charged. -/
lemma exists_execute_tuned {c c' : Config} (h : c.SameLimits c') (fuel : Nat) (entry : UInt64)
    (cpu : Cpu.State) (mem : Memory)
    (hstop : Stopped (execute fuel entry (Emulator.boot cpu mem c))) :
    ∃ fuel', Stopped (execute fuel' entry (Emulator.boot cpu mem c')) ∧
      ending (execute fuel' entry (Emulator.boot cpu mem c')) =
        ending (execute fuel entry (Emulator.boot cpu mem c)) ∧
      charged fuel' entry (Emulator.boot cpu mem c') =
        charged fuel entry (Emulator.boot cpu mem c) := by
  have htuned : OnHosts TunedMeter
      ⟨cpu, mem, ⟨⟨.start .interpreter c, 0, c.loopBudget⟩, 0⟩⟩
      ⟨cpu, mem, ⟨⟨.start .interpreter c', 0, c'.loopBudget⟩, 0⟩⟩ :=
    ⟨rfl, rfl, ⟨Compiler.tuned_start h, rfl, h.loopBudget⟩, rfl⟩
  obtain ⟨fuel', hmatched⟩ := serving_tuned.serve fuel (.jump entry) htuned hstop
  change Matched _ _ (execute fuel entry (Emulator.boot cpu mem c))
    (execute fuel' entry (Emulator.boot cpu mem c')) at hmatched
  refine ⟨fuel', hmatched.stopped hstop, ?_⟩
  unfold charged
  generalize execute fuel entry (Emulator.boot cpu mem c) = r at hmatched
  generalize execute fuel' entry (Emulator.boot cpu mem c') = r' at hmatched
  rcases r with ⟨a, s⟩ | ⟨e, s⟩ <;> rcases r' with ⟨b, t⟩ | ⟨e', t⟩
  · obtain ⟨rfl, hcpu, hmem, -, hcharged⟩ := hmatched
    exact ⟨by simp only [ending, hcpu, hmem], hcharged⟩
  · exact hmatched.elim
  · exact hmatched.elim
  · obtain ⟨rfl, -, hcpu, hmem, -, hcharged⟩ := hmatched
    exact ⟨by simp only [ending, hcpu, hmem], hcharged⟩

end Metered

namespace Emulator

open Recorded (ending)

lemma stopped_of_ending {H H' : Type} {r : EStateM.Result (Halt Error) (Machine H) UInt64}
    {r' : EStateM.Result (Halt Error) (Machine H') UInt64} (h : ending r = ending r')
    (hr : Stopped r) : Stopped r' := by
  rcases r with ⟨a, s⟩ | ⟨e, s⟩ <;> rcases r' with ⟨b, t⟩ | ⟨e', t⟩
  · trivial
  · cases congrArg Prod.fst h
  · trivial
  · cases congrArg Prod.fst h
    exact Run.stopped_error hr

lemma stopped_metered {fuel : Nat} {entry : UInt64} {m : Emulator} :
    Stopped (Metered.execute fuel entry m) ↔ Stopped (execute fuel entry m) :=
  ⟨stopped_of_ending (Metered.ending_execute fuel entry m),
    stopped_of_ending (Metered.ending_execute fuel entry m).symm⟩

end Emulator

end Dynarec
