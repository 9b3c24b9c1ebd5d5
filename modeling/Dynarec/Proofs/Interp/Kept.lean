import Dynarec.Proofs.Cpu.Normalized
import Dynarec.Proofs.Interp.Bounds
import Dynarec.Proofs.Shape.Lockstep

/-!
# What running functions keeps

A property of the processor state that writing places keeps is kept by running any function, if the
host keeps it while it serves the function's requests. It holds wherever the run stops, also where it
stops with an error or because its bound is reached.
-/

namespace Dynarec.Interp

open Ir (Op Operand Ty)
open Run (Maintains)

variable {H α : Type} {P : Cpu.State → Prop} {types : Array Ty}

/-- A property of the processor state of a machine. -/
abbrev OfCpu (P : Cpu.State → Prop) : Machine H → Prop := fun m => P m.cpu

/-- A property of the machine below a frame. -/
abbrev OfMachine (N : Machine H → Prop) : Frame H → Prop := fun f => N f.machine

/-- A property of the processor state below a frame. -/
abbrev UnderFrame (P : Cpu.State → Prop) : Frame H → Prop := OfMachine (OfCpu P)

/-- A host that maintains a property of the processor state while it serves. -/
structure Services.Maintain (P : Cpu.State → Prop) (s : Services H) : Prop where
  request (r : Request) : Maintains (OfCpu P) (s.request r)
  tick : Maintains (OfCpu P) s.tick

section
variable {N : Machine H → Prop}

lemma read_maintains (operand : Operand) : Maintains (OfMachine N) (read operand) := fun _ h => h

lemma load_maintains (addr : UInt64) (size : AccessSize) :
    Maintains (OfMachine N) (load addr size) := by
  intro f h
  unfold load
  cases f.machine.mem.read addr size <;> exact h

lemma onMachine_maintains {x : Run Error (Machine H) α} (hx : Maintains N x) :
    Maintains (OfMachine N) (onMachine x) := by
  rintro ⟨machine, locals⟩ h
  have hafter := hx machine h
  cases hm : x machine with
  | ok a m =>
    rw [hm] at hafter
    rw [onMachine_ok hm]
    exact hafter
  | error e m =>
    rw [hm] at hafter
    rw [onMachine_error hm]
    exact hafter

end

lemma store_maintains (addr : UInt64) (size : AccessSize) (value : UInt64) :
    Maintains (UnderFrame (H := H) P) (store addr size value) := by
  rintro ⟨⟨cpu, mem, host⟩, locals⟩ h
  simp only [store]
  cases Memory.write addr size value mem <;> exact h

/-- Writing a place keeps a property of the processor state. -/
def KeptByWrites (P : Cpu.State → Prop) : Prop :=
  ∀ s place value, P s → P (s.writePlace place value)

lemma write_maintains (hP : KeptByWrites P) (place : Ir.Place) (value : UInt64) :
    Maintains (UnderFrame (H := H) P) (write types place value) := by
  rintro ⟨⟨cpu, mem, host⟩, locals⟩ h
  have hw := hP cpu place value h
  cases place with
  | scratch l => exact h
  | _ => exact hw

lemma Services.Maintain.related (hP : KeptByWrites P) {s : Services H} (h : s.Maintain P) :
    Related (.maintains (UnderFrame P)) types s s where
  read := read_maintains
  write := write_maintains hP
  load := load_maintains
  store := store_maintains
  request r := onMachine_maintains (h.request r)

/-- Running a function maintains what writing places and the host maintain. -/
theorem invoke_maintains (hP : KeptByWrites P) {s : Services H} (h : s.Maintain P) (fuel : Nat) (f : Ir.Function) :
    Maintains (OfCpu P) (invoke s fuel f) := by
  intro m hm
  have hw : Maintains (UnderFrame P) (f.body.walk (visitor s f.locals) fuel) :=
    Shape.maintains_walk (runOps_rel (h.related hP))
      (fun c => (read_maintains c).bind fun _ => EStateM.keeps_pure _)
      (onMachine_maintains h.tick) fuel f.body
  have hafter := hw ⟨m, .replicate f.locals.size 0⟩ hm
  unfold invoke
  cases hr : f.body.walk (visitor s f.locals) fuel ⟨m, .replicate f.locals.size 0⟩ with
  | error e frame =>
    rw [hr] at hafter
    exact hafter
  | ok r frame =>
    rw [hr] at hafter
    cases r <;> exact hafter

end Dynarec.Interp
