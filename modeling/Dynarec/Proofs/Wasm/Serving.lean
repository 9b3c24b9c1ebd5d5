import Dynarec.Proofs.Wasm.Tracking

/-!
# Serving modules

Running code next to a run that it stands for. The functions that a module imports serve it as a host does that
serves functions which are run directly: they do the same on the machine that is held by what is shared. Every
host can give modules such functions. A host that records the calls of running code serves as it does without.
-/

namespace Dynarec.Interp

variable {H α : Type}

/-- What running code calls its host for. -/
inductive HostCall where
  | request (r : Request)
  | tick
  deriving DecidableEq, Repr

/-- A call of the host, with the processor state and the guest memory that it finds. -/
structure Event where
  call : HostCall
  cpu : Cpu.State
  ram : ByteArray

/-- Record a call before it is served on a machine. -/
def recordOnMachine (call : HostCall) (x : Run Error (Machine H) α) :
    Run Error (Machine (H × List Event)) α := fun ⟨cpu, mem, host, log⟩ =>
  let log := log ++ [⟨call, cpu, mem.bytes⟩]
  match x ⟨cpu, mem, host⟩ with
  | .ok a m => .ok a ⟨m.cpu, m.mem, m.host, log⟩
  | .error e m => .error e ⟨m.cpu, m.mem, m.host, log⟩

/-- A host that records the calls of running code in order. -/
def Services.recorded (s : Services H) : Services (H × List Event) where
  request q := recordOnMachine (.request q) (s.request q)
  tick := recordOnMachine .tick s.tick

end Dynarec.Interp

namespace Dynarec.Wasm

open Interp (HostCall Event)

variable {H : Type} {r : Nat} {image : UInt32} {services : Interp.Services H} {imported : Imported Error H}
  {machine : Machine H} {shared : Instance H}

/-! ### Runs next to each other -/

/-- What a failure of a frame's run is for the code: a failed access to guest memory and a missing return are
traps, and what the host fails with is passed on. -/
inductive Becomes : Error → Trap Error → Prop where
  | memory (e : Memory.Error) : Becomes (.memory e) .trap
  | fellOffEnd (entry : UInt64) : Becomes (.invariant (.fellOffEnd entry)) .trap
  | imported (e : Error) : Becomes e (.imported e)

section
variable {α β γ δ σ τ : Type} {Q : α → σ → β → τ → Prop} {Q' : γ → σ → δ → τ → Prop} {R : σ → τ → Prop}

/-- A run of code ends as the run does that it stands for: with related values and states, with what the
failure becomes, or at the bound; in related states. -/
def Simulated (Q : α → σ → β → τ → Prop) (R : σ → τ → Prop) :
    EStateM.Result (Halt Error) σ α → EStateM.Result (Halt (Trap Error)) τ β → Prop
  | .ok a s, .ok b t => Q a s b t
  | .error (.error e) s, .error (.error e') t => Becomes e e' ∧ R s t
  | .error .outOfFuel s, .error .outOfFuel t => R s t
  | _, _ => False

lemma Simulated.bind {x : Run Error σ α} {y : Run (Trap Error) τ β} {s : σ} {t : τ}
    (h : Simulated Q R (x s) (y t)) {f : α → Run Error σ γ} {g : β → Run (Trap Error) τ δ}
    (hf : ∀ a s b t, Q a s b t → Simulated Q' R (f a s) (g b t)) :
    Simulated Q' R ((x >>= f) s) ((y >>= g) t) := by
  cases hx : x s with
  | ok a s₁ =>
    cases hy : y t with
    | ok b t₁ =>
      rw [hx, hy] at h
      rw [EStateM.bind_ok hx, EStateM.bind_ok hy]
      exact hf a s₁ b t₁ h
    | error e t₁ =>
      rw [hx, hy] at h
      exact h.elim
  | error e s₁ =>
    cases hy : y t with
    | ok b t₁ =>
      rw [hx, hy] at h
      cases e <;> exact h.elim
    | error e' t₁ =>
      rw [hx, hy] at h
      rw [EStateM.bind_error hx, EStateM.bind_error hy]
      cases e <;> cases e' <;> exact h

end

/-- A host and an imported function end alike: with the same value or the same error, and what is shared holds
the machine then. -/
abbrev Alike {α : Type} (r : Nat) (image : UInt32) : EStateM.Result (Halt Error) (Machine H) α →
    EStateM.Result (Halt Error) (Instance H) α → Prop :=
  Run.Matched (Holds r image) fun _ => True

/-- Imported functions serve running code as a host does, on the machine that is held by what is shared. -/
structure Serves (r : Nat) (image : UInt32) (services : Interp.Services H) (imported : Imported Error H) :
    Prop where
  call {m : Machine H} {shared : Instance H} (slot : Nat) : slot < 2 ^ 32 → Holds r image m shared →
    Alike r image (services.request (.call slot) m) (imported.callSlot (UInt32.ofNat slot) image shared)
  jump {m : Machine H} {shared : Instance H} (target : UInt64) : Holds r image m shared →
    Alike r image (services.request (.jump target) m) (imported.jumpToPc image target shared)
  tick {m : Machine H} {shared : Instance H} : Holds r image m shared →
    Alike r image (services.tick m) (imported.tick image shared)

/-! ### Hosts of modules -/

section
variable {α : Type}

/-- The machine that is held by what is shared, with the register image at an address. -/
def held (r : Nat) (image : UInt32) (shared : Instance H) : Machine H :=
  ⟨Cpu.State.readImage shared.memory image.toNat, ⟨shared.memory.extract 0 r⟩, shared.host⟩

/-- Put a machine into what is shared. -/
def Instance.hold (shared : Instance H) (r : Nat) (image : UInt32) (m : Machine H) : Instance H :=
  ⟨m.cpu.writeImage (m.mem.bytes ++ shared.memory.extract r shared.memory.size) image.toNat, m.host⟩

/-- Let a host serve on the machine that is held by what is shared. -/
def onHeld (r : Nat) (image : UInt32) (x : Run Error (Machine H) α) : Run Error (Instance H) α := fun shared =>
  match x (held r image shared) with
  | .ok a m => .ok a (shared.hold r image m)
  | .error e m => .error e (shared.hold r image m)

/-- The imported functions that a host gives to modules. -/
def exported (s : Interp.Services H) (r : Nat) : Imported Error H where
  callSlot slot image := onHeld r image (s.request (.call slot.toNat))
  jumpToPc image target := onHeld r image (s.request (.jump target))
  tick image := onHeld r image s.tick

/-- A machine with so much guest memory and a normalized state. -/
def Fits (r : Nat) (m : Machine H) : Prop := m.mem.size = r ∧ m.cpu.Normalized

lemma held_eq (h : Holds r image machine shared) : held r image shared = machine := by
  rw [held, h.state, h.ram, h.host]

/-- A machine is held where it is put, if the image is above guest memory and within linear memory. -/
lemma holds_hold {shared : Instance H} {m : Machine H} (hm : Fits r m) (habove : r ≤ image.toNat)
    (hfits : image.toNat + Cpu.State.byteSize ≤ shared.memory.size) (hlimit : shared.memory.size ≤ 2 ^ 32) :
    Holds r image m (shared.hold r image m) := by
  have hbytes : (m.mem.bytes ++ shared.memory.extract r shared.memory.size).size = shared.memory.size := by
    have hmem : m.mem.bytes.size = r := hm.1
    rw [ByteArray.size_append, ByteArray.size_extract, hmem]
    omega
  have hsize : (shared.hold r image m).memory.size = shared.memory.size :=
    Cpu.State.size_writeImage.trans hbytes
  refine ⟨rfl, ?_, habove, by rwa [hsize], by rwa [hsize], ?_, hm.2⟩
  · calc (shared.hold r image m).memory.extract 0 r
        = (m.mem.bytes ++ shared.memory.extract r shared.memory.size).extract 0 r :=
          Bytes.extract_congr Cpu.State.size_writeImage fun j hj => Cpu.State.get_writeImage (by omega)
      _ = m.mem.bytes := ByteArray.extract_append_eq_left hm.1.symm
  · exact Cpu.State.readImage_writeImage (by rwa [hbytes])

/-- A host serves alike on a machine and on what is shared. -/
lemma alike_onHeld {x : Run Error (Machine H) α} (hx : Run.Maintains (Fits r) x)
    (h : Holds r image machine shared) : Alike r image (x machine) (onHeld r image x shared) := by
  have hafter := hx machine ⟨h.size_mem, h.normalized⟩
  rw [onHeld, held_eq h]
  cases hm : x machine with
  | ok a m =>
    rw [hm] at hafter
    exact ⟨rfl, holds_hold hafter h.above h.fits h.limit⟩
  | error e m =>
    rw [hm] at hafter
    exact ⟨rfl, trivial, holds_hold hafter h.above h.fits h.limit⟩

/-- The functions that a host gives to modules serve as the host does, if it keeps the size of guest memory and
states normalized. -/
theorem serves_exported (s : Interp.Services H) (r : Nat) (image : UInt32)
    (hrequest : ∀ q, Run.Maintains (Fits r) (s.request q)) (htick : Run.Maintains (Fits r) s.tick) :
    Serves r image s (exported s r) where
  call slot hslot h := by
    have hnumber : (UInt32.ofNat slot).toNat = slot := UInt32.toNat_ofNat_of_lt' hslot
    unfold exported
    simp only [hnumber]
    exact alike_onHeld (hrequest _) h
  jump target h := alike_onHeld (hrequest _) h
  tick h := alike_onHeld htick h

end

/-! ### Host calls -/

section
variable {ε α : Type}

/-- Record a call before it is served on what is shared, where the processor state is in the register image
and guest memory at address zero. -/
def recordOnShared (r : Nat) (image : UInt32) (call : HostCall) (x : Run ε (Instance H) α) :
    Run ε (Instance (H × List Event)) α := fun ⟨memory, host, log⟩ =>
  let log := log ++ [⟨call, Cpu.State.readImage memory image.toNat, memory.extract 0 r⟩]
  match x ⟨memory, host⟩ with
  | .ok a shared => .ok a ⟨shared.memory, shared.host, log⟩
  | .error e shared => .error e ⟨shared.memory, shared.host, log⟩

/-- Imported functions that record their calls in order. -/
def Imported.recorded (i : Imported ε H) (r : Nat) : Imported ε (H × List Event) where
  callSlot slot image := recordOnShared r image (.request (.call slot.toNat)) (i.callSlot slot image)
  jumpToPc image target := recordOnShared r image (.request (.jump target)) (i.jumpToPc image target)
  tick image := recordOnShared r image .tick (i.tick image)

/-- A machine is held together with the calls of its host so far. -/
lemma holds_log_iff {cpu : Cpu.State} {mem : Memory} {host host' : H} {memory : ByteArray}
    {log log' : List Event} :
    Holds r image ⟨cpu, mem, (host, log)⟩ ⟨memory, (host', log')⟩ ↔
      Holds r image ⟨cpu, mem, host⟩ ⟨memory, host'⟩ ∧ log' = log := by
  constructor
  · intro h
    exact ⟨{ h with host := congrArg Prod.fst h.host }, congrArg Prod.snd h.host⟩
  · rintro ⟨h, rfl⟩
    exact { h with host := congrArg (·, log') h.host }

/-- Calls that are served alike are recorded alike. -/
lemma alike_recorded {x : Run Error (Machine H) α} {y : Run Error (Instance H) α} (call : HostCall)
    (hxy : ∀ {m : Machine H} {shared : Instance H}, Holds r image m shared → Alike r image (x m) (y shared))
    {m : Machine (H × List Event)} {shared : Instance (H × List Event)} (h : Holds r image m shared) :
    Alike r image (Interp.recordOnMachine call x m) (recordOnShared r image call y shared) := by
  obtain ⟨cpu, mem, host, log⟩ := m
  obtain ⟨memory, host', log'⟩ := shared
  obtain ⟨hplain, rfl⟩ := holds_log_iff.1 h
  have hstate := hplain.state
  have hram := hplain.ram
  have halike := hxy hplain
  simp only [Interp.recordOnMachine, recordOnShared, hstate, hram]
  cases hx : x ⟨cpu, mem, host⟩ with
  | ok a m =>
    cases hy : y ⟨memory, host'⟩ with
    | ok b shared =>
      rw [hx, hy] at halike
      exact ⟨halike.1, holds_log_iff.2 ⟨halike.2, rfl⟩⟩
    | error e shared =>
      rw [hx, hy] at halike
      exact halike.elim
  | error e m =>
    cases hy : y ⟨memory, host'⟩ with
    | ok b shared =>
      rw [hx, hy] at halike
      exact halike.elim
    | error e' shared =>
      rw [hx, hy] at halike
      exact ⟨halike.1, trivial, holds_log_iff.2 ⟨halike.2.2, rfl⟩⟩

end

/-- Imported functions that serve as a host does record the same calls. -/
lemma Serves.recorded (h : Serves r image services imported) :
    Serves r image services.recorded (imported.recorded r) where
  call slot hslot hholds := by
    have hnumber : (UInt32.ofNat slot).toNat = slot := UInt32.toNat_ofNat_of_lt' hslot
    unfold Imported.recorded
    simp only [hnumber]
    exact alike_recorded _ (h.call slot hslot) hholds
  jump target hholds := alike_recorded _ (h.jump target) hholds
  tick hholds := alike_recorded _ h.tick hholds

end Dynarec.Wasm
