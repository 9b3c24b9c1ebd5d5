import Dynarec.Proofs.Emulator.Record

/-!
# Calls reach the functions that they name

In every compiler that a start leads to, by whatever is done to it and however that ends, the slots
are consistent and installed code is linked to them. So a call through the slot of an address runs
the function of that address, and no call goes through a vacant slot. The proof runs an emulator
beside a recorded one: the code that runs has been linked before, and slots stay where they are for as
long as it runs.
-/

namespace Dynarec.Emulator

open Compiler (Sound Grows)
open Interp (Request)
open Linking (Code)

variable {Origin : UInt64 → Memory → Prop}

/-! ### Resolving requests -/

/-- The emulator with another compiler. -/
def withCompiler (m : Emulator) (c : Compiler) : Emulator :=
  { m with host := { m.host with compiler := c } }

/-- A request is for the function of an address: it jumps there or calls through its slot. -/
inductive Asks (c : Compiler) (a : UInt64) : Request → Prop where
  | jump : Asks c a (.jump a)
  | call {slot : Nat} : c.lookup a = some slot → Asks c a (.call slot)

lemma Asks.grows {c c' : Compiler} {a : UInt64} {request : Request} (h : Asks c a request) (hgrows : Grows c c') :
    Asks c' a request := by
  cases h with
  | jump => exact .jump
  | call hslot => exact .call (hgrows.slots a _ hslot)

/-- A call runs what is in the slot, or has the function of the address compiled. -/
lemma resolve_call {m : Emulator} (h : m.host.compiler.Sound Origin) {a : UInt64} {slot : Nat}
    (hslot : m.host.compiler.lookup a = some slot) :
    resolve (.call slot) m = match m.host.compiler.compiled? a with
      | some code => .ok code m
      | none => compile a m := by
  rcases h.slots.holds a slot hslot with he | ⟨code, he⟩
  · have hget : m.host.compiler.slot? slot = some (.trampoline a) := he
    have hnone : m.host.compiler.compiled? a = none := by
      rw [Compiler.compiled?, hslot, Option.bind_some, hget]
    simp only [resolve, hget, hnone]
  · have hget : m.host.compiler.slot? slot = some (.compiled a code) := he
    simp only [resolve, hget, h.compiled?_iff.mpr ⟨slot, hget⟩]

/-- A request for the function of an address gives the code that is then compiled for the address, or
an error that is not a call through a vacant slot. -/
lemma resolve_spec {m : Emulator} (h : m.host.compiler.Sound Origin) {a : UInt64} {request : Request}
    (hrequest : Asks m.host.compiler a request)
    (horigin : m.host.compiler.compiled? a = none → Origin a m.mem) :
    ∃ c, c.Sound Origin ∧ Grows m.host.compiler c ∧
      ((∃ code, resolve request m = .ok code (m.withCompiler c) ∧ c.compiled? a = some code) ∨
        ∃ e, resolve request m = .error (.error e) (m.withCompiler c) ∧
          ∀ slot, e ≠ .backend (.vacantSlot slot)) := by
  have hcompile : ∃ c, c.Sound Origin ∧ Grows m.host.compiler c ∧
      ((∃ code, compile a m = .ok code (m.withCompiler c) ∧ c.compiled? a = some code) ∨
        ∃ e, compile a m = .error (.error e) (m.withCompiler c) ∧
          ∀ slot, e ≠ .backend (.vacantSlot slot)) := by
    obtain ⟨hsound, hgrows, hcode⟩ := h.compile _ _ horigin
    refine ⟨_, hsound, hgrows, ?_⟩
    obtain ⟨cpu, mem, compiler, depth, budget⟩ := m
    simp only [compile]
    cases hc : Compiler.compile a mem compiler with
    | ok code c => exact .inl ⟨code, rfl, hcode code c hc⟩
    | error e c => exact .inr ⟨e, rfl, Compiler.compile_error hc⟩
  cases hrequest with
  | jump => exact hcompile
  | call hslot =>
    rw [resolve_call h hslot]
    cases hcode : m.host.compiler.compiled? a with
    | none => exact hcompile
    | some code => exact ⟨_, h, .refl _, .inl ⟨code, rfl, hcode⟩⟩

end Dynarec.Emulator

namespace Dynarec.Recorded

open Compiler (Sound Grows)
open Emulator (Asks withCompiler)
open Interp (Request)
open Linking (Code)

/-! ### Recording what is resolved -/

/-- The function of an address was last built from the memory that is recorded for it, and memory was
of some kind. -/
def Origin (Fit : Memory → Prop) (r : Record) (a : UInt64) (mem : Memory) : Prop :=
  Fit mem ∧ mem = r.origin a

variable {Fit : Memory → Prop}

lemma missing_eq {O : UInt64 → Memory → Prop} {c : Compiler} (h : c.Sound O) {a : UInt64}
    {request : Request} (hrequest : Asks c a request) :
    missing c request = if (c.compiled? a).isSome then none else some a := by
  cases hrequest with
  | jump => rfl
  | call hslot =>
    unfold missing
    rcases h.slots.holds a _ hslot with he | ⟨code, he⟩
    · simp only [Compiler.slot?, he]
    · simp only [Compiler.slot?, he, h.compiled?_iff.mpr ⟨_, he⟩, Option.isSome_some, if_true]

/-- What is recorded when a request is resolved leaves the emulator alone and the compiler sound. -/
lemma noteBuild_spec {m : Recorded} (h : m.host.host.compiler.Sound (Origin Fit m.host.record))
    (hfit : Fit m.mem) {a : UInt64} {request : Request}
    (hrequest : Asks m.host.host.compiler a request) :
    (m.noteBuild request).erase = m.erase ∧
      m.host.host.compiler.Sound (Origin Fit (m.noteBuild request).host.record) ∧
      (m.host.host.compiler.compiled? a = none →
        Origin Fit (m.noteBuild request).host.record a m.mem) := by
  unfold noteBuild
  rw [missing_eq h hrequest]
  cases hcode : m.host.host.compiler.compiled? a with
  | some code => exact ⟨rfl, h, nofun⟩
  | none =>
    refine ⟨rfl, h.imp ?_, fun _ => ⟨hfit, (if_pos rfl).symm⟩⟩
    rintro slot b code hslot mem ⟨hmem, rfl⟩
    -- an address with code is not the one whose function is built
    have hne : b ≠ a := by
      rintro rfl
      rw [h.compiled?_iff.mpr ⟨slot, hslot⟩] at hcode
      cases hcode
    exact ⟨hmem, (if_neg hne).symm⟩

/-! ### An emulator beside itself -/

/-- What is held beside itself: a sound compiler that one at the start has grown to. -/
def Traced (Fit : Memory → Prop) (c₀ : Compiler) (mem : Memory) (r : Record) (c c' : Compiler) :
    Prop :=
  c' = c ∧ Fit mem ∧ c.Sound (Origin Fit r) ∧ Grows c₀ c

/-- The slots of addresses. -/
def Assigns (c₀ : Compiler) (slot slot' : Nat) : Prop := slot' = slot ∧ ∃ a, c₀.lookup a = some slot

/-- An error other than a call through a vacant slot. -/
def NotVacant (e : Halt Error) : Prop := ∀ slot, e ≠ .error (.backend (.vacantSlot slot))

lemma aligned_of_sound {O : UInt64 → Memory → Prop} {c : Compiler} (h : c.Sound O) {a : UInt64}
    {code : Code} (hcode : c.compiled? a = some code) :
    Aligned (Assigns c) code.function code.function := by
  obtain ⟨slot, hslot⟩ := h.compiled?_iff.mp hcode
  obtain ⟨mem, c', -, hbuild, hsame⟩ := h.built slot a code hslot
  obtain ⟨y, words, hy⟩ := Compiler.exists_yields a mem c.config
  obtain ⟨f, -, hf, hassigned, hcalls⟩ := hy.of_build_same rfl hbuild hsame
  refine ⟨f, _, _, hf, hf, hcalls.imp (fun ops hops dst n hn => ?_) fun _ h => h⟩
  obtain ⟨b, hb, rfl⟩ := hops dst n hn
  obtain ⟨k, hk⟩ := hassigned b hb
  exact ⟨rfl, b, by rw [Compiler.slotOf_eq hk]; exact hk⟩

lemma traced_tracking
    (hfit : ∀ {addr size value mem mem'}, Fit mem → Memory.write addr size value mem = .ok () mem' →
      Fit mem') :
    Tracking (fun _ => True) NotVacant (Traced Fit) Assigns where
  store := by
    rintro c₀ addr value size mem mem' r c _ ⟨rfl, hmem, hsound, hgrows⟩ hwrite -
    exact ⟨rfl, hfit hmem hwrite, hsound, hgrows⟩
  resolve := by
    rintro c₀ request request' s t hrequest hst -
    obtain ⟨hcompiler, hmem, hsound, hgrows⟩ := hst.held
    obtain ⟨a, rfl, hasks⟩ : ∃ a, request' = request ∧ Asks s.host.host.compiler a request := by
      cases hrequest with
      | jump target => exact ⟨target, rfl, .jump⟩
      | call hslots =>
        obtain ⟨rfl, a, ha⟩ := hslots
        exact ⟨a, rfl, .call (hgrows.slots a _ ha)⟩
    obtain ⟨herase, hsound', horigin⟩ := noteBuild_spec hsound hmem hasks
    have ht : t = s.erase := by
      obtain ⟨cpu, mem, compiler, depth, budget⟩ := t
      obtain ⟨rfl, rfl, rfl, rfl, -, -⟩ := hst
      subst hcompiler
      rfl
    obtain ⟨c, hc, hgrows', hresult⟩ := Emulator.resolve_spec (m := s.erase) hsound' hasks horigin
    have hsame : ∀ c₁, Grows c₁ c → Same (Traced Fit c₁)
        (withRecord (s.erase.withCompiler c) (s.noteBuild request').host.record)
        (s.erase.withCompiler c) := fun c₁ h => ⟨rfl, rfl, rfl, rfl, rfl, rfl, hmem, hc, h⟩
    rw [Recorded.resolve, plainly, herase, ht]
    rcases hresult with ⟨code, hcode, hfound⟩ | ⟨e, he, hvacant⟩
    · rw [hcode]
      refine ⟨c, hsame c (.refl c), ?_, aligned_of_sound hc hfound⟩
      rintro mem r c₁ c₂ ⟨h, hfit, hsound, h'⟩
      exact ⟨h, hfit, hsound, (hgrows.trans hgrows').trans h'⟩
    · rw [he]
      refine ⟨rfl, fun slot h => hvacant slot ?_, hsame c₀ (hgrows.trans hgrows')⟩
      injection h
  back_store _ := trivial
  back_build _ := trivial
  memory _ := nofun
  fellOffEnd _ := nofun
  callDepth _ := nofun
  budget := nofun
  outOfFuel := nofun

/-- What is related by being the same, with a sound compiler that one at the start has grown to. -/
lemma Same.traced {c₀ : Compiler} {s : Recorded} {t : Emulator} (h : Same (Traced Fit c₀) s t) :
    t = s.erase ∧ Fit s.mem ∧ s.host.host.compiler.Sound (Origin Fit s.host.record) ∧
      Grows c₀ s.host.host.compiler := by
  obtain ⟨cpu, mem, compiler, depth, budget⟩ := t
  obtain ⟨rfl, rfl, rfl, rfl, -, hcompiler, hrest⟩ := h
  subst hcompiler
  exact ⟨rfl, hrest⟩

/-- The record changes nothing of a run, and a run keeps the compiler sound. -/
theorem execute_traced (Fit : Memory → Prop)
    (hfit : ∀ {addr size value mem mem'}, Fit mem → Memory.write addr size value mem = .ok () mem' →
      Fit mem') (fuel : Nat) (entry : UInt64) {m : Recorded} (hmem : Fit m.mem)
    (hsound : m.host.host.compiler.Sound (Origin Fit m.host.record)) :
    Run.Matched (fun s t => t = s.erase ∧ Fit s.mem ∧
        s.host.host.compiler.Sound (Origin Fit s.host.record) ∧
        Grows m.host.host.compiler s.host.host.compiler) NotVacant
      (execute fuel entry m) (Emulator.execute fuel entry m.erase) := by
  obtain ⟨cpu, mem, ⟨⟨c, depth, budget⟩, record⟩⟩ := m
  have hstart : Same (Traced Fit c)
      ⟨cpu, mem, ⟨⟨c, 0, c.config.loopBudget⟩, ⟨[], [], record.origin⟩⟩⟩
      ⟨cpu, mem, ⟨c, 0, c.config.loopBudget⟩⟩ :=
    ⟨rfl, rfl, rfl, rfl, rfl, rfl, hmem, hsound, .refl c⟩
  have hrun := ((traced_tracking hfit).serve_lockstep fuel c (.jump entry)).step _ _ hstart
    trivial
  change Run.Matched _ _ (serve fuel (.jump entry) _) (Emulator.serve fuel (.jump entry) _)
  generalize serve fuel (.jump entry) _ = r at hrun ⊢
  generalize Emulator.serve fuel (.jump entry) _ = r' at hrun ⊢
  rcases r with ⟨a, s'⟩ | ⟨e, s'⟩ <;> rcases r' with ⟨b, t'⟩ | ⟨e', t'⟩
  · exact ⟨hrun.1, hrun.2.traced⟩
  · exact hrun.elim
  · exact hrun.elim
  · exact ⟨hrun.1, hrun.2.1, hrun.2.2.traced⟩

end Dynarec.Recorded

namespace Dynarec

open Compiler (Sound Grows Linked)
open Linking (Code)

/-! ### Reached compilers -/

/-- Compilers that a start leads to by compiling, building, invalidating, flushing and running guest
code, from and on whatever memory and however each of these ends. -/
inductive Compiler.Reached : Compiler → Prop where
  | start (backend : Backend) (config : Config) : Reached (.start backend config)
  | compile {c : Compiler} (entry : UInt64) (mem : Memory) : Reached c →
    Reached (EStateM.after (Compiler.compile entry mem c))
  | build {c : Compiler} (entry : UInt64) (mem : Memory) : Reached c →
    Reached (EStateM.after (Compiler.build entry mem c))
  | invalidate {c : Compiler} (addr : UInt64) : Reached c → Reached (c.invalidate addr).2
  | flush {c : Compiler} : Reached c → Reached c.flush
  | execute {m : Emulator} (fuel : Nat) (entry : UInt64) : Reached m.host.compiler →
    Reached (EStateM.after (Emulator.execute fuel entry m)).host.compiler

/-- Code has been built from some memory. -/
abbrev FromSomewhere : UInt64 → Memory → Prop := fun _ _ => True

/-- For every address whose code is installed there is one memory that it was built from. -/
lemma Compiler.Sound.exists_origin {c : Compiler} (h : c.Sound FromSomewhere) :
    ∃ origin : UInt64 → Memory, ∀ fetched stored,
      c.Sound (Recorded.Origin (fun _ => True) ⟨fetched, stored, origin⟩) := by
  have hchoice : ∀ a : UInt64, ∃ mem, ∀ slot code, c.slot? slot = some (.compiled a code) →
      ∃ c', Compiler.build a mem c = .ok code.function c' ∧ c'.slots = c.slots := by
    intro a
    cases hcode : c.compiled? a with
    | none =>
      refine ⟨.zeroed 0, fun slot code hslot => ?_⟩
      rw [h.compiled?_iff.mpr ⟨slot, hslot⟩] at hcode
      cases hcode
    | some code =>
      obtain ⟨slot, hslot⟩ := h.compiled?_iff.mp hcode
      obtain ⟨mem, c', -, hbuild⟩ := h.built slot a code hslot
      refine ⟨mem, fun slot' code' hslot' => ⟨c', ?_⟩⟩
      rw [h.compiled?_iff.mpr ⟨slot', hslot'⟩] at hcode
      cases hcode
      exact hbuild
  choose origin horigin using hchoice
  refine ⟨origin, fun fetched stored => ⟨h.slots, fun slot a code hslot => ?_⟩⟩
  obtain ⟨c', hbuild⟩ := horigin a slot code hslot
  exact ⟨origin a, c', ⟨trivial, rfl⟩, hbuild⟩

/-- A run of an emulator keeps its compiler sound, takes nothing away, and makes no call through a
vacant slot. -/
lemma Emulator.execute_sound (fuel : Nat) (entry : UInt64) {m : Emulator}
    (h : m.host.compiler.Sound FromSomewhere) :
    (EStateM.after (execute fuel entry m)).host.compiler.Sound FromSomewhere ∧
      Grows m.host.compiler (EStateM.after (execute fuel entry m)).host.compiler ∧
      ∀ e m', execute fuel entry m = .error e m' → Recorded.NotVacant e := by
  obtain ⟨origin, horigin⟩ := h.exists_origin
  have hrun := Recorded.execute_traced (fun _ => True) (fun _ _ => trivial) fuel entry
    (m := Recorded.withRecord m ⟨[], [], origin⟩) trivial (horigin [] [])
  change Run.Matched _ _ _ (execute fuel entry m) at hrun
  generalize Recorded.execute fuel entry _ = r at hrun
  generalize execute fuel entry m = r' at hrun ⊢
  rcases r with ⟨a, s⟩ | ⟨e, s⟩ <;> rcases r' with ⟨b, t⟩ | ⟨e', t⟩
  · obtain ⟨-, rfl, -, hsound, hgrows⟩ := hrun
    exact ⟨hsound.imp fun _ _ _ _ _ _ => trivial, hgrows, fun _ _ h => by cases h⟩
  · exact hrun.elim
  · exact hrun.elim
  · obtain ⟨rfl, he, rfl, -, hsound, hgrows⟩ := hrun
    refine ⟨hsound.imp fun _ _ _ _ _ _ => trivial, hgrows, fun _ _ h => ?_⟩
    cases h
    exact he

/-- Every step keeps a compiler sound, so every compiler that a start leads to is. -/
theorem Compiler.sound_of_reached {c : Compiler} (h : c.Reached) : c.Sound FromSomewhere := by
  induction h with
  | start backend config => exact sound_start backend config
  | compile entry mem _ ih => exact (ih.compile entry mem fun _ => trivial).1
  | build entry mem _ ih => exact ih.build entry mem
  | invalidate addr _ ih => exact ih.invalidate addr
  | flush _ ih => exact ih.flush
  | execute fuel entry _ ih => exact (Emulator.execute_sound fuel entry ih).1

/-- In every compiler that a start leads to, successfully or not: every address with a slot has its
own, which holds its function or stands for it, every slot in use is that of an address, and the
others are the free ones, each once. Installed code is what building the function of its address from
some memory gives, with every call linked to the slot that the called address has now. A call through
the slot of an address runs the function of that address, compiled before or then. And a run takes no
slot and no code away and makes no call through a vacant slot. -/
theorem Compiler.linked_of_reached {c : Compiler} (h : c.Reached) :
    c.slots.Consistent ∧
    (∀ slot a code, c.slot? slot = some (.compiled a code) →
      c.lookup a = some slot ∧ code.function.entry = a ∧
        ∃ mem c', Compiler.build a mem c = .ok code.function c' ∧ c'.slots = c.slots ∧
          code.function.body.All (Linked mem c.slots) fun _ => True) ∧
    (∀ a slot, c.lookup a = some slot → ∀ m : Emulator, m.host.compiler = c →
      ((∃ code, c.slot? slot = some (.compiled a code) ∧
          Emulator.resolve (.call slot) m = .ok code m) ∨
        c.slot? slot = some (.trampoline a) ∧
          Emulator.resolve (.call slot) m = Emulator.compile a m) ∧
      ∀ code m', Emulator.resolve (.call slot) m = .ok code m' → code.function.entry = a) ∧
    ∀ (m : Emulator) (fuel : Nat) (entry : UInt64), m.host.compiler = c →
      Grows c (EStateM.after (Emulator.execute fuel entry m)).host.compiler ∧
        ∀ slot m', Emulator.execute fuel entry m ≠ .error (.error (.backend (.vacantSlot slot))) m' := by
  have hsound := sound_of_reached h
  refine ⟨hsound.slots, fun slot a code hslot => ?_, ?_, ?_⟩
  · obtain ⟨mem, c', -, hbuild, hsame⟩ := hsound.built slot a code hslot
    obtain ⟨hentry, hlinked⟩ := linked_of_build hbuild
    obtain ⟨b, hb⟩ := hsound.slots.owned slot _ hslot (by simp)
    obtain rfl := hsound.slots.entry_of_compiled hb hslot
    exact ⟨hb, hentry, mem, c', hbuild, hsame, hsame ▸ hlinked⟩
  · rintro a slot hslot m rfl
    constructor
    · rw [Emulator.resolve_call hsound hslot]
      rcases hsound.slots.holds a slot hslot with he | ⟨code, he⟩
      · have hget : m.host.compiler.slot? slot = some (.trampoline a) := he
        have hnone : m.host.compiler.compiled? a = none := by
          rw [compiled?, hslot, Option.bind_some, hget]
        rw [hnone]
        exact .inr ⟨he, rfl⟩
      · rw [hsound.compiled?_iff.mpr ⟨slot, he⟩]
        exact .inl ⟨code, he, rfl⟩
    · intro code m' hcode
      obtain ⟨c', hsound', -, hresult⟩ := Emulator.resolve_spec hsound (.call hslot)
        fun _ => trivial
      rcases hresult with ⟨code', hcode', hfound⟩ | ⟨e, he, -⟩
      · rw [hcode] at hcode'
        cases hcode'
        obtain ⟨k, hk⟩ := hsound'.compiled?_iff.mp hfound
        obtain ⟨mem, c₁, -, hbuild, -⟩ := hsound'.built k a code hk
        exact (linked_of_build hbuild).1
      · rw [hcode] at he
        cases he
  · rintro m fuel entry rfl
    obtain ⟨-, hgrows, herror⟩ := Emulator.execute_sound fuel entry hsound
    exact ⟨hgrows, fun slot m' he => herror _ _ he slot rfl⟩

/-- Two instructions, of which the first one calls the second one, are compiled, flushed and compiled
again: the function has a slot then, which runs it, and no run from there calls a vacant slot. -/
theorem Compiler.linked_of_reached_flushed :
    let mem : Memory := ⟨⟨#[0x01, 0x00, 0x00, 0x94, 0xc0, 0x03, 0x5f, 0xd6]⟩⟩
    let first := EStateM.after (compile 0 mem (.start .interpreter ⟨8, 1, true, 2, some 3⟩))
    let c := EStateM.after (compile 0 mem first.flush)
    c.Reached ∧ c.slots.Consistent ∧ ∃ slot, c.lookup 0 = some slot ∧
      ∀ m : Emulator, m.host.compiler = c →
        (∀ code m', Emulator.resolve (.call slot) m = .ok code m' → code.function.entry = 0) ∧
          ∀ fuel slot m', Emulator.execute fuel 4 m ≠
            .error (.error (.backend (.vacantSlot slot))) m' := by
  intro mem first c
  have hreached : c.Reached := .compile 0 mem (.flush (.compile 0 mem (.start _ _)))
  obtain ⟨hslots, -, hcall, hrun⟩ := linked_of_reached hreached
  obtain ⟨slot, hslot⟩ := exists_lookup_compile 0 mem first.flush
  exact ⟨hreached, hslots, slot, hslot, fun m hm =>
    ⟨(hcall 0 slot hslot m hm).2, fun fuel => (hrun m fuel 4 hm).2⟩⟩

end Dynarec
