import Dynarec.Proofs.Emulator.Transparent
import Dynarec.Proofs.Flat.Functions

/-!
# Runs on the flat machine

A run of an emulator is a run of the flat machine, as long as no word that it fetches is changed by a store. All code
is built from the memory at the start then, and whatever a request is for, the function of its address takes the flat
machine from there to where it returns to. Functions call each other in all ways, so this is shown for all requests
within a bound of the run at once.
-/

namespace Dynarec

open Compiler (Agree Grows)
open Emulator (Asks)
open Interp (Request)
open Linking (Code)

/-- No word that was fetched was changed by a store. -/
def Record.Untouched (mem₀ : Memory) (r : Record) : Prop := ∀ mem ∈ r.stored, Agree r.fetched mem₀ mem

namespace Recorded

variable {mem₀ : Memory} {c₀ c₁ : Compiler} {m m' m₁ : Recorded} {a v : UInt64} {request : Request} {code : Code}
  {fuel : Nat}

/-- A run that started with a memory and a compiler and has come to where the compiler has grown from another one. -/
abbrev Running (mem₀ : Memory) (c₀ c₁ : Compiler) (m : Recorded) : Prop :=
  Paired mem₀ c₀ (c₁, c₁) m.mem m.host.record m.host.host.compiler m.host.host.compiler

lemma Running.of_grows {c₂ : Compiler} (h : Running mem₀ c₀ c₂ m) (hgrows : Grows c₁ c₂) : Running mem₀ c₀ c₁ m :=
  { h with leftGrows := hgrows.trans h.leftGrows, rightGrows := hgrows.trans h.rightGrows }

/-- A request that is resolved leaves the core and the memory alone, and the function that it is for is held. -/
lemma Running.resolve (h : Running mem₀ c₀ c₁ m) (hrequest : Asks c₁ a request)
    (hr : Recorded.resolve request m = .ok code m₁) (hgood : Spared mem₀ c₀ m₁.host.record) :
    m₁.flat = m.flat ∧ Grows c₁ m₁.host.host.compiler ∧ Running mem₀ c₀ m₁.host.host.compiler m₁ ∧
      m₁.host.host.compiler.compiled? a = some code := by
  obtain ⟨y, words, c, r, -, -, hsound, hgrows, hnow, hfetched, hresult⟩ :=
    Paired.resolves h (hrequest.grows h.leftGrows) (by rwa [hr])
  rcases hresult with ⟨e, -, he⟩ | ⟨f, code', -, hcode, hfound⟩
  · cases hr.symm.trans he
  · cases hr.symm.trans hcode
    have hbackend := hgrows.setup.1.trans h.leftBackend
    have hstart := h.start.trans hgrows
    exact ⟨rfl, h.leftGrows.trans hgrows, ⟨hsound, hsound, hstart, .refl c, .refl c, hbackend, hbackend, h.size, hnow,
      hfetched⟩, hfound⟩

/-- Requests are served as the flat machine runs, for code that is held. -/
lemma serves_of_serve {slot : Nat} (hcode : c₁.slot? slot = some (.compiled a code))
    (hserve : ∀ {a request m v m'}, Asks c₁ a request → Running mem₀ c₀ c₁ m → serve fuel request m = .ok v m' →
      Spared mem₀ c₀ m'.host.record → Running mem₀ c₀ c₁ m' ∧ Flat.Reaches (m.flat a) (m'.flat v)) :
    Flat.Serves mem₀ (Compiler.fetched a mem₀ c₁) c₁.slots (fun r : Recorder => Spared mem₀ c₀ r.record)
      (Running mem₀ c₀ c₁) noteStore ⟨serve fuel, plainly Emulator.tick⟩ where
  store := (paired_tracking mem₀ c₀).back_store
  request := (paired_tracking mem₀ c₀).back_serve fuel _ _
  tick := back_tick _
  agree {m} hm hgood := by
    have hheld : m.host.host.compiler.compiled? a = some code :=
      hm.left.compiled?_iff.2 ⟨slot, hm.leftGrows.code slot a code hcode⟩
    rw [Compiler.fetched_config a mem₀ (hm.leftGrows.setup.2.symm.trans hm.start.setup.2)]
    exact Paired.agree hm hgood hheld
  write _ hm := hm
  stored hm hwrite hgood := (paired_tracking mem₀ c₀).store hm hwrite hgood
  call hslot := hserve (.call hslot)
  jump := hserve .jump
  ticked := by
    rintro ⟨cpu, mem, ⟨⟨compiler, depth, _ | _ | _⟩, record⟩⟩ m' hm htick hgood <;> cases htick <;>
      exact ⟨hm, rfl, rfl⟩

/-- A request that is served takes the flat machine from the address that it is for to where it returns to. -/
theorem serve_reaches (hrequest : Asks c₁ a request) (h : Running mem₀ c₀ c₁ m)
    (hrun : serve fuel request m = .ok v m') (hgood : Spared mem₀ c₀ m'.host.record) :
    Running mem₀ c₀ c₁ m' ∧ Flat.Reaches (m.flat a) (m'.flat v) := by
  induction fuel generalizing c₁ a request m v m' with
  | zero => cases hrun
  | succ fuel ih =>
    rw [serve_succ] at hrun
    obtain ⟨code, m₁, hr, hrun⟩ := EStateM.of_bind_ok hrun
    have hgood₁ : Spared mem₀ c₀ m₁.host.record := by
      apply (paired_tracking mem₀ c₀).back_runCode (fun _ m => (paired_tracking mem₀ c₀).back_serve fuel _ m) code m₁
      rwa [hrun]
    obtain ⟨hflat, hgrows, h₁, hfound⟩ := h.resolve hrequest hr hgood₁
    obtain ⟨slot, hslot⟩ := h₁.left.compiled?_iff.1 hfound
    obtain ⟨mem, c', hmem, hbuild, hsame⟩ := h₁.left.built slot a code hslot
    rw [hmem] at hbuild
    have hs := serves_of_serve hslot ih
    rw [← hsame] at hs
    unfold runCode at hrun
    split at hrun
    · cases hrun
    · generalize hobserve : Interp.observe noteStore ⟨serve fuel, plainly Emulator.tick⟩ fuel code.function
        (withRecord m₁.erase.deeper m₁.host.record) = r at hrun
      cases r with
      | error e m₂ => cases hrun
      | ok value m₂ =>
        cases hrun
        have hdeeper : Running mem₀ c₀ m₁.host.host.compiler (withRecord m₁.erase.deeper m₁.host.record) := h₁
        obtain ⟨h₂, hreach⟩ := Compiler.build_reaches hbuild hs hdeeper hobserve hgood
        rw [← hflat]
        exact ⟨h₂.of_grows hgrows, hreach⟩

end Recorded

/-- A fresh emulator that has a core and a memory, and no record of a run. -/
def Recorded.start (cpu : Cpu.State) (mem : Memory) (config : Config) : Recorded :=
  withRecord { Emulator.start mem .interpreter config with cpu } ⟨[], [], fun _ => mem⟩

end Dynarec
