import Dynarec.Proofs.Interp.Congruence
import Dynarec.Proofs.Shape.Bounds

/-!
# Bounds of functions

A function that runs on a machine reaches its bound only where its host does, or in a loop. Here a
property and a measure are of what the host keeps: operations other than requests leave that alone.
-/

namespace Dynarec.Interp

open Ir (Op Operand Ty)
open Run (Below Steady Shrinks Stopped)

variable {H α β : Type}

/-- One host serves as another one does, unless the first one reaches its bound. -/
structure Services.Below (s t : Services H) : Prop where
  request : ∀ r, Run.Below (s.request r) (t.request r)
  tick : Run.Below s.tick t.tick

lemma onMachine_ok {x : Run Error (Machine H) α} {m m' : Machine H} {a : α} {locals : Array UInt64}
    (h : x m = .ok a m') : onMachine x ⟨m, locals⟩ = .ok a ⟨m', locals⟩ := by
  simp only [onMachine, h]

lemma onMachine_error {x : Run Error (Machine H) α} {m m' : Machine H} {e : Halt Error}
    {locals : Array UInt64} (h : x m = .error e m') :
    onMachine x ⟨m, locals⟩ = .error e ⟨m', locals⟩ := by
  simp only [onMachine, h]

lemma onMachine_below {x y : Run Error (Machine H) α} (h : Run.Below x y) :
    Run.Below (onMachine x) (onMachine y) := by
  rintro ⟨machine, locals⟩ hs
  have hm : Stopped (x machine) := by
    cases hx : x machine with
    | ok a m => trivial
    | error e m =>
      rw [onMachine_error hx] at hs
      exact Run.stopped_error hs
  simp only [onMachine, h machine hm]

lemma Services.Below.related {s t : Services H} (h : s.Below t) (types : Array Ty) :
    Related .below types s t where
  read _ := .refl _
  write _ _ := .refl _
  load _ _ := .refl _
  store _ _ _ := .refl _
  request r := onMachine_below (h.request r)

lemma visitor_below {s t : Services H} (h : s.Below t) (types : Array Ty) :
    (visitor s types).Below (visitor t types) where
  body := runOps_rel (h.related types)
  test _ := .refl _
  backEdge := onMachine_below h.tick

lemma invoke_below {s t : Services H} (h : s.Below t) {fuel fuel' : Nat} (hle : fuel ≤ fuel')
    (f : Ir.Function) : Run.Below (invoke s fuel f) (invoke t fuel' f) := by
  intro m hm
  have hw : Stopped (f.body.walk (visitor s f.locals) fuel ⟨m, .replicate f.locals.size 0⟩) := by
    unfold invoke at hm
    cases hr : f.body.walk (visitor s f.locals) fuel ⟨m, .replicate f.locals.size 0⟩ with
    | ok r frame => trivial
    | error e frame =>
      simp only [hr] at hm
      exact Run.stopped_error hm
  simp only [invoke, Shape.walk_below (visitor_below h f.locals) hle f.body _ hw]

/-! ### Functions that stop -/

section
variable {P : H → Prop} {μ : H → Nat} {types : Array Ty}

/-- A property of what the host of a frame keeps. -/
abbrev OfHost (P : H → Prop) : Frame H → Prop := fun f => P f.machine.host

/-- A measure of what the host of a frame keeps. -/
abbrev hostMeasure (μ : H → Nat) : Frame H → Nat := fun f => μ f.machine.host

/-- A computation on a frame that stops and leaves its host alone. -/
lemma steady_of_host {x : Run Error (Frame H) α}
    (h : ∀ f, Stopped (x f) ∧ ∀ a f', x f = .ok a f' → f'.machine.host = f.machine.host) :
    Steady (OfHost P) (hostMeasure μ) x := by
  intro f hf
  refine ⟨(h f).1, fun a f' ha => ?_⟩
  have hhost := (h f).2 a f' ha
  exact ⟨by unfold OfHost; rwa [hhost], by simp only [hostMeasure, hhost, Nat.le_refl]⟩

lemma host_write (types : Array Ty) (f : Frame H) (place : Ir.Place) (value : UInt64) :
    (f.write types place value).machine.host = f.machine.host := by
  cases place <;> rfl

lemma read_steady (operand : Operand) : Steady (OfHost P) (hostMeasure μ) (read operand) :=
  steady_of_host fun f => ⟨trivial, fun a f' h => by cases h; rfl⟩

lemma write_steady (place : Ir.Place) (value : UInt64) :
    Steady (OfHost P) (hostMeasure μ) (write types place value) :=
  steady_of_host fun f => ⟨trivial, fun a f' h => by cases h; exact host_write types f place value⟩

lemma load_steady (addr : UInt64) (size : AccessSize) :
    Steady (OfHost P) (hostMeasure μ) (load addr size) := by
  apply steady_of_host
  intro f
  unfold load
  cases f.machine.mem.read addr size with
  | ok value => exact ⟨trivial, fun a f' h => by cases h; rfl⟩
  | error e => exact ⟨trivial, fun a f' h => by cases h⟩

lemma store_steady (addr : UInt64) (size : AccessSize) (value : UInt64) :
    Steady (OfHost P) (hostMeasure μ) (store addr size value) := by
  apply steady_of_host
  rintro ⟨⟨cpu, mem, host⟩, locals⟩
  simp only [store]
  cases Memory.write addr size value mem with
  | ok u mem => exact ⟨trivial, fun a f' h => by cases h; rfl⟩
  | error e mem => exact ⟨trivial, fun a f' h => by cases h⟩

lemma onMachine_stops {R : H → H → Prop} {x : Run Error (Machine H) α}
    (h : Run.Stops (fun m => P m.host) (fun m m' => R m.host m'.host) x) :
    Run.Stops (OfHost P) (fun f f' => R f.machine.host f'.machine.host) (onMachine x) := by
  rintro ⟨machine, locals⟩ hP
  obtain ⟨hstop, hok⟩ := h machine hP
  cases hx : x machine with
  | ok a m =>
    rw [onMachine_ok hx]
    refine ⟨trivial, fun a' f' h => ?_⟩
    cases h
    exact hok a m hx
  | error e m =>
    rw [hx] at hstop
    rw [onMachine_error hx]
    exact ⟨Run.stopped_error hstop, fun a' f' h => by cases h⟩

lemma onMachine_steady {x : Run Error (Machine H) α}
    (h : Steady (fun m => P m.host) (fun m => μ m.host) x) :
    Steady (OfHost P) (hostMeasure μ) (onMachine x) :=
  onMachine_stops (R := fun h h' => μ h' ≤ μ h) h

lemma onMachine_shrinks {x : Run Error (Machine H) α}
    (h : Shrinks (fun m => P m.host) (fun m => μ m.host) x) :
    Shrinks (OfHost P) (hostMeasure μ) (onMachine x) :=
  onMachine_stops (R := fun h h' => μ h' < μ h) h

/-- A host whose requests stop and whose charges for jumps back make a measure smaller. -/
structure Services.Bounded (P : H → Prop) (μ : H → Nat) (s : Services H) : Prop where
  request : ∀ r, Steady (fun m => P m.host) (fun m => μ m.host) (s.request r)
  tick : Shrinks (fun m => P m.host) (fun m => μ m.host) s.tick

lemma Services.Bounded.related {s : Services H} (h : s.Bounded P μ) :
    Related (.steady (OfHost P) (hostMeasure μ)) types s s where
  read := read_steady
  write := write_steady
  load := load_steady
  store := store_steady
  request r := onMachine_steady (h.request r)

lemma visitor_bounded {s : Services H} (h : s.Bounded P μ) :
    (visitor s types).Bounded (OfHost P) (hostMeasure μ) where
  body := runOps_rel h.related
  test c := (read_steady c).bind fun _ => Run.steady_pure _
  backEdge := onMachine_shrinks h.tick

/-- A function stops when its host does and the fuel exceeds the number of jumps back that the host
lets it make. -/
theorem invoke_steady {s : Services H} (h : s.Bounded P μ) {fuel : Nat}
    (hfuel : ∀ x, P x → μ x < fuel) (f : Ir.Function) :
    Steady (fun m => P m.host) (fun m => μ m.host) (invoke s fuel f) := by
  intro m hP
  have hw : Steady (OfHost P) (hostMeasure μ) (f.body.walk (visitor s f.locals) fuel) :=
    Shape.walk_steady (visitor_bounded h) (fun x => hfuel x.machine.host) f.body
  obtain ⟨hstop, hok⟩ := hw ⟨m, .replicate f.locals.size 0⟩ hP
  unfold invoke
  cases hr : f.body.walk (visitor s f.locals) fuel ⟨m, .replicate f.locals.size 0⟩ with
  | error e frame =>
    rw [hr] at hstop
    exact ⟨Run.stopped_error hstop, fun a m' ha => by cases ha⟩
  | ok r frame =>
    cases r with
    | none => exact ⟨trivial, fun a m' ha => by cases ha⟩
    | some value =>
      refine ⟨trivial, fun a m' ha => ?_⟩
      cases ha
      exact hok _ _ hr

end

end Dynarec.Interp
