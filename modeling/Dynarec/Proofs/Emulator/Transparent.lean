import Dynarec.Proofs.Emulator.Links

/-!
# The cache is transparent

A run of an emulator that has run before ends as it does on a fresh one with the same core and memory,
as long as memory has the words that the installed code was built from and the run leaves the words
that are fetched alone. What the two compilers hold differs: how slots are numbered, what has been
compiled already, and what stands for functions that could not be compiled. But all code of both is
built from the words that memory has at the start, so the two run one function at any time, linked to
the slots of either.
-/

namespace Dynarec

open Compiler (Sound Grows Agree Comparable Yields Finding)

/-! ### Compilers of one memory -/

namespace Compiler

/-- Every function of a compiler is built from one memory. -/
abbrev SoundAt (mem : Memory) (c : Compiler) : Prop := c.Sound fun _ mem' => mem' = mem

variable {mem mem₀ : Memory} {a : UInt64} {c : Compiler} {y : Finding Ir.Function}
  {words : List UInt64}

/-- Compiling for the interpreter gives what the words of the memory of the compiler yield, from any
memory that has these words. -/
lemma SoundAt.compile (h : c.SoundAt mem₀) (hbackend : c.backend = .interpreter)
    (hy : Yields a mem₀ c.config y words) (hmem : Comparable mem₀ mem)
    (hagree : Agree words mem₀ mem) :
    ∃ c', c'.SoundAt mem₀ ∧ Grows c c' ∧
      (∀ slot b code, c'.slot? slot = some (.compiled b code) →
        b = a ∨ c.slot? slot = some (.compiled b code)) ∧
      ((∃ e, y.result = .error e ∧ Compiler.compile a mem c = .error e c') ∨
        ∃ f code, y.result = .ok f ∧ Compiler.compile a mem c = .ok code c' ∧
          c'.compiled? a = some code) := by
  have hwider : c.Sound fun b mem' => mem' = mem₀ ∨ b = a ∧ mem' = mem :=
    h.imp fun _ _ _ _ _ h => .inl h
  obtain ⟨hsound, hgrows, hfound⟩ := hwider.compile a mem fun _ => .inr ⟨rfl, rfl⟩
  refine ⟨_, hsound.rebase ?_, hgrows, fun _ _ _ => compiled_of_compile, ?_⟩
  · rintro slot b code - mem' (rfl | ⟨rfl, rfl⟩)
    · exact ⟨.inl rfl, fun _ _ => rfl⟩
    · rw [hy.fetched _ hmem hagree _ hgrows.setup.2]
      exact ⟨hmem.symm, fun pc hpc => (hagree pc hpc).symm⟩
  · cases hcode : c.compiled? a with
    | some code =>
      obtain ⟨slot, hslot⟩ := h.compiled?_iff.mp hcode
      obtain ⟨_, c', rfl, hbuild, -⟩ := h.built slot a code hslot
      obtain ⟨f, hf, -⟩ := hy.of_build rfl hbuild
      have hhit := compile_hit mem hcode
      have hfound' := hfound _ _ hhit
      rw [hhit]
      exact .inr ⟨f, code, hf, rfl, hfound'⟩
    | none =>
      have hmiss := compile_miss mem hcode
      rw [hy.build mem hmem hagree (c.withSlot a) rfl] at hmiss
      unfold Finding.on at hmiss
      cases hresult : y.result with
      | error e =>
        rw [hresult] at hmiss
        rw [hmiss]
        exact .inl ⟨e, rfl, rfl⟩
      | ok f =>
        rw [hresult] at hmiss
        have hinterpreter : (c.withSlot a).backend = .interpreter := hbackend
        simp only [Except.map, endIn, hinterpreter, Backend.prepare] at hmiss
        have hfound' := hfound _ _ hmiss
        rw [hmiss]
        exact .inr ⟨f, _, rfl, rfl, hfound'⟩

end Compiler

namespace Emulator

open Interp (Request)

/-- A request for the function of an address gives what the words of the memory of the compiler
yield. -/
lemma resolve_at {mem₀ : Memory} {m : Emulator} (h : m.host.compiler.SoundAt mem₀)
    (hbackend : m.host.compiler.backend = .interpreter) {a : UInt64} {request : Request}
    (hrequest : Asks m.host.compiler a request) {y : Finding Ir.Function} {words : List UInt64}
    (hy : Yields a mem₀ m.host.compiler.config y words) (hmem : Comparable mem₀ m.mem)
    (hagree : Agree words mem₀ m.mem) :
    ∃ c, c.SoundAt mem₀ ∧ Grows m.host.compiler c ∧
      (∀ slot b code, c.slot? slot = some (.compiled b code) →
        b = a ∨ m.host.compiler.slot? slot = some (.compiled b code)) ∧
      ((∃ e, y.result = .error e ∧ resolve request m = .error (.error e) (m.withCompiler c)) ∨
        ∃ f code, y.result = .ok f ∧ resolve request m = .ok code (m.withCompiler c) ∧
          c.compiled? a = some code) := by
  have hcompile : ∃ c, c.SoundAt mem₀ ∧ Grows m.host.compiler c ∧
      (∀ slot b code, c.slot? slot = some (.compiled b code) →
        b = a ∨ m.host.compiler.slot? slot = some (.compiled b code)) ∧
      ((∃ e, y.result = .error e ∧ compile a m = .error (.error e) (m.withCompiler c)) ∨
        ∃ f code, y.result = .ok f ∧ compile a m = .ok code (m.withCompiler c) ∧
          c.compiled? a = some code) := by
    obtain ⟨c, hsound, hgrows, hnew, hresult⟩ := h.compile hbackend hy hmem hagree
    refine ⟨c, hsound, hgrows, hnew, ?_⟩
    obtain ⟨cpu, mem, compiler, depth, budget⟩ := m
    simp only [compile]
    rcases hresult with ⟨e, he, hc⟩ | ⟨f, code, hf, hc, hfound⟩
    · exact .inl ⟨e, he, by rw [hc]; rfl⟩
    · exact .inr ⟨f, code, hf, by rw [hc]; rfl, hfound⟩
  cases hrequest with
  | jump => exact hcompile
  | call hslot =>
    rw [resolve_call h hslot]
    cases hcode : m.host.compiler.compiled? a with
    | none => exact hcompile
    | some code =>
      obtain ⟨slot, hslot⟩ := h.compiled?_iff.mp hcode
      obtain ⟨_, c', rfl, hbuild, -⟩ := h.built slot a code hslot
      obtain ⟨f, hf, -⟩ := hy.of_build rfl hbuild
      exact ⟨_, h, .refl _, fun _ _ _ h => .inr h, .inr ⟨f, code, hf, rfl, hcode⟩⟩

end Emulator

namespace Recorded

open Emulator (Asks withCompiler)
open Interp (Request)
open Linking (Code)

/-! ### Two emulators with one memory -/

/-- A run from some memory leaves alone every word that was fetched for the code that a compiler held
before or that is fetched in the run. -/
def Spared (mem₀ : Memory) (c₀ : Compiler) (r : Record) : Prop :=
  ∀ mem ∈ r.stored, Agree r.fetched mem₀ mem ∧
    ∀ slot a code, c₀.slot? slot = some (.compiled a code) →
      Agree (Compiler.fetched a mem₀ c₀) mem₀ mem

/-- What is held by two emulators that run from one memory: compilers all of whose functions are
built from that memory, grown from others. The first one started as `c₀`; what is fetched for its
further code is recorded. -/
structure Paired (mem₀ : Memory) (c₀ : Compiler) (i : Compiler × Compiler) (mem : Memory) (r : Record)
    (c c' : Compiler) : Prop where
  left : c.SoundAt mem₀
  right : c'.SoundAt mem₀
  start : Grows c₀ c
  leftGrows : Grows i.1 c
  rightGrows : Grows i.2 c'
  leftBackend : c.backend = .interpreter
  rightBackend : c'.backend = .interpreter
  size : mem.size = mem₀.size
  now : mem = mem₀ ∨ mem ∈ r.stored
  fetched : ∀ slot a code, c.slot? slot = some (.compiled a code) →
    (∃ slot code, c₀.slot? slot = some (.compiled a code)) ∨
      Compiler.fetched a mem₀ c₀ ⊆ r.fetched

/-- The slots of one address in two compilers. -/
def Assigned (i : Compiler × Compiler) (slot slot' : Nat) : Prop :=
  ∃ a, i.1.lookup a = some slot ∧ i.2.lookup a = some slot'

variable {mem₀ : Memory} {c₀ : Compiler}

lemma aligned_of_soundAt {c c' : Compiler} (h : c.SoundAt mem₀) (h' : c'.SoundAt mem₀)
    (hconfig : c'.config = c.config) {a : UInt64} {code code' : Code}
    (hcode : c.compiled? a = some code) (hcode' : c'.compiled? a = some code') :
    Aligned (Assigned (c, c')) code.function code'.function := by
  obtain ⟨y, words, hy⟩ := Compiler.exists_yields a mem₀ c.config
  obtain ⟨slot, hslot⟩ := h.compiled?_iff.mp hcode
  obtain ⟨slot', hslot'⟩ := h'.compiled?_iff.mp hcode'
  obtain ⟨_, c₁, rfl, hbuild, hsame⟩ := h.built slot a code hslot
  obtain ⟨_, c₁', rfl, hbuild', hsame'⟩ := h'.built slot' a code' hslot'
  obtain ⟨f, hf, hfunction, hassigned, hcalls⟩ := hy.of_build_same rfl hbuild hsame
  obtain ⟨f', hf', hfunction', hassigned', -⟩ := hy.of_build_same hconfig hbuild' hsame'
  obtain rfl : f = f' := by
    rw [hf] at hf'
    exact Except.ok.inj hf'
  refine ⟨f, _, _, hfunction, hfunction', hcalls.imp (fun ops hops dst n hn => ?_) fun _ h => h⟩
  obtain ⟨b, hb, rfl⟩ := hops dst n hn
  obtain ⟨k, hk⟩ := hassigned b hb
  obtain ⟨k', hk'⟩ := hassigned' b hb
  exact ⟨b, by rw [Compiler.slotOf_eq hk]; exact hk, by rw [Compiler.slotOf_eq hk']; exact hk'⟩

lemma noteBuild_of_some {m : Recorded} {O : UInt64 → Memory → Prop}
    (h : m.host.host.compiler.Sound O) {a : UInt64} {request : Request}
    (hrequest : Asks m.host.host.compiler a request) {code : Code}
    (hcode : m.host.host.compiler.compiled? a = some code) : m.noteBuild request = m := by
  rw [noteBuild, missing_eq h hrequest, hcode]
  rfl

lemma noteBuild_of_none {m : Recorded} {O : UInt64 → Memory → Prop}
    (h : m.host.host.compiler.Sound O) {a : UInt64} {request : Request}
    (hrequest : Asks m.host.host.compiler a request)
    (hcode : m.host.host.compiler.compiled? a = none) : m.noteBuild request =
      withRecord m.erase (m.host.record.build a m.mem m.host.host.compiler) := by
  rw [noteBuild, missing_eq h hrequest, hcode]
  rfl

/-- Memory has the words that were fetched for a function that is held. -/
lemma Paired.agree {i : Compiler × Compiler} {mem : Memory} {r : Record} {c c' : Compiler}
    (h : Paired mem₀ c₀ i mem r c c') (hgood : Spared mem₀ c₀ r) {a : UInt64} {code : Code}
    (hcode : c.compiled? a = some code) : Agree (Compiler.fetched a mem₀ c₀) mem₀ mem := by
  obtain ⟨slot, hslot⟩ := h.left.compiled?_iff.mp hcode
  rcases h.now with rfl | hmem
  · exact fun _ _ => rfl
  · obtain ⟨hagree, hcached⟩ := hgood mem hmem
    rcases h.fetched slot a code hslot with ⟨slot, code, hslot⟩ | hsub
    · exact hcached slot a code hslot
    · exact fun pc hpc => hagree pc (hsub hpc)

/-- What is recorded for a request covers the words of the function that it is for, which are left
alone. -/
lemma Paired.noteBuild {i : Compiler × Compiler} {s : Recorded} {c' : Compiler}
    (h : Paired mem₀ c₀ i s.mem s.host.record s.host.host.compiler c') {a : UInt64}
    {request : Request} (hrequest : Asks s.host.host.compiler a request)
    (hgood : Spared mem₀ c₀ (s.noteBuild request).host.record) :
    (s.noteBuild request).erase = s.erase ∧
      Agree (Compiler.fetched a mem₀ c₀) mem₀ s.mem ∧
      (s.noteBuild request).host.record.stored = s.host.record.stored ∧
      s.host.record.fetched ⊆ (s.noteBuild request).host.record.fetched ∧
      ((∃ slot code, c₀.slot? slot = some (.compiled a code)) ∨
        Compiler.fetched a mem₀ c₀ ⊆ (s.noteBuild request).host.record.fetched) := by
  have hconfig := h.start.setup.2
  cases hcode : s.host.host.compiler.compiled? a with
  | some code =>
    rw [noteBuild_of_some h.left hrequest hcode] at hgood ⊢
    obtain ⟨slot, hslot⟩ := h.left.compiled?_iff.mp hcode
    exact ⟨rfl, h.agree hgood hcode, rfl, List.Subset.refl _, h.fetched slot a code hslot⟩
  | none =>
    rw [noteBuild_of_none h.left hrequest hcode] at hgood ⊢
    -- the words are fetched from memory as it is now, which is as it was at the start there
    have hagree : Agree (Compiler.fetched a s.mem s.host.host.compiler) s.mem mem₀ := by
      rcases h.now with hmem | hmem
      · rw [hmem]
        exact fun _ _ => rfl
      · intro pc hpc
        exact ((hgood s.mem hmem).1 pc (List.mem_append_left _ hpc)).symm
    have hfetched : Compiler.fetched a mem₀ c₀ =
        Compiler.fetched a s.mem s.host.host.compiler := by
      rw [← (Compiler.build_congr (.inl h.size.symm) hagree).2]
      exact (Compiler.fetched_config a mem₀ hconfig).symm
    refine ⟨rfl, ?_, rfl, List.subset_append_right _ _, .inr ?_⟩
    · rw [hfetched]
      exact fun pc hpc => (hagree pc hpc).symm
    · rw [hfetched]
      exact List.subset_append_left _ _

/-- A request for the function of an address is resolved by what the words of the memory at the start yield, and what is
recorded covers the code that is held then. -/
lemma Paired.resolves {i : Compiler × Compiler} {s : Recorded} {c' : Compiler}
    (h : Paired mem₀ c₀ i s.mem s.host.record s.host.host.compiler c') {a : UInt64}
    {request : Request} (hrequest : Asks s.host.host.compiler a request)
    (hgood : Spared mem₀ c₀ (EStateM.after (Recorded.resolve request s)).host.record) :
    ∃ y words c r, Yields a mem₀ s.host.host.compiler.config y words ∧ Agree words mem₀ s.mem ∧
      c.SoundAt mem₀ ∧ Grows s.host.host.compiler c ∧ (s.mem = mem₀ ∨ s.mem ∈ r.stored) ∧
      (∀ slot b code, c.slot? slot = some (.compiled b code) →
        (∃ slot code, c₀.slot? slot = some (.compiled b code)) ∨
          Compiler.fetched b mem₀ c₀ ⊆ r.fetched) ∧
      ((∃ e, y.result = .error e ∧
          Recorded.resolve request s = .error (.error e) (withRecord (s.erase.withCompiler c) r)) ∨
        ∃ f code, y.result = .ok f ∧
          Recorded.resolve request s = .ok code (withRecord (s.erase.withCompiler c) r) ∧
          c.compiled? a = some code) := by
  rw [Recorded.resolve, record_plainly] at hgood
  obtain ⟨herase, hagree, hstored, hsub, hfetched⟩ := h.noteBuild hrequest hgood
  obtain ⟨y, words, hy⟩ := Compiler.exists_yields a mem₀ s.host.host.compiler.config
  have hwords : words = Compiler.fetched a mem₀ c₀ := by
    rw [← hy.fetched mem₀ (.inl rfl) (fun _ _ => rfl) c₀ h.start.setup.2.symm]
  rw [← hwords] at hagree
  obtain ⟨c, hsound, hgrows, hnew, hresult⟩ := Emulator.resolve_at (m := s.erase) h.left
    h.leftBackend hrequest hy (.inl h.size) hagree
  refine ⟨y, words, c, (s.noteBuild request).host.record, hy, hagree, hsound, hgrows, ?_, ?_, ?_⟩
  · rw [hstored]
    exact h.now
  · intro slot b code hslot
    rcases hnew slot b code hslot with rfl | hold
    · exact hfetched
    · exact (h.fetched slot b code hold).imp_right fun h => List.Subset.trans h hsub
  · rw [Recorded.resolve, plainly, herase]
    rcases hresult with ⟨e, he, hresult⟩ | ⟨f, code, hf, hresult, hfound⟩
    · exact .inl ⟨e, he, by rw [hresult]⟩
    · exact .inr ⟨f, code, hf, by rw [hresult], hfound⟩

/-- Two emulators with one memory resolve requests alike. -/
lemma paired_tracking (mem₀ : Memory) (c₀ : Compiler) :
    Tracking (Spared mem₀ c₀) (fun _ => True) (Paired mem₀ c₀) Assigned where
  store := by
    intro i addr value size mem mem' r c c' h hwrite _
    exact ⟨h.left, h.right, h.start, h.leftGrows, h.rightGrows, h.leftBackend, h.rightBackend,
      (Memory.size_write hwrite).trans h.size, .inr List.mem_cons_self, h.fetched⟩
  resolve := by
    intro i request request' s t hrequest hst hgood
    have h := hst.held
    obtain ⟨a, hasks, hasks'⟩ : ∃ a, Asks s.host.host.compiler a request ∧
        Asks t.host.compiler a request' := by
      cases hrequest with
      | jump target => exact ⟨target, .jump, .jump⟩
      | call hslots =>
        obtain ⟨a, ha, ha'⟩ := hslots
        exact ⟨a, .call (h.leftGrows.slots a _ ha), .call (h.rightGrows.slots a _ ha')⟩
    obtain ⟨y, words, c, r, hy, hagree, hsound, hgrows, hnow, hfetched, hleft⟩ :=
      h.resolves hasks hgood
    have hmem := hst.mem
    obtain ⟨c', hsound', hgrows', -, hright⟩ := Emulator.resolve_at (m := t) h.right
      h.rightBackend hasks' (hst.config ▸ hy) (.inl (hmem ▸ h.size)) (hmem ▸ hagree)
    have hconfig : c'.config = c.config :=
      hgrows'.setup.2.trans (hst.config.trans hgrows.setup.2.symm)
    have hsame : ∀ j : Compiler × Compiler, Grows j.1 c → Grows j.2 c' →
        Same (Paired mem₀ c₀ j) (withRecord (s.erase.withCompiler c) r) (t.withCompiler c') :=
      fun j hj hj' => ⟨hst.cpu, hst.mem, hst.depth, hst.budget, hconfig, hsound, hsound',
        h.start.trans hgrows, hj, hj', hgrows.setup.1.trans h.leftBackend,
        hgrows'.setup.1.trans h.rightBackend, h.size, hnow, hfetched⟩
    rcases hleft with ⟨e, he, hleft⟩ | ⟨f, code, hf, hleft, hfound⟩ <;>
      rcases hright with ⟨e', he', hright⟩ | ⟨f', code', hf', hright, hfound'⟩
    · rw [he] at he'
      cases he'
      rw [hleft, hright]
      exact ⟨rfl, trivial, hsame i (h.leftGrows.trans hgrows) (h.rightGrows.trans hgrows')⟩
    · rw [he] at hf'
      cases hf'
    · rw [he'] at hf
      cases hf
    · rw [hleft, hright]
      refine ⟨(c, c'), hsame (c, c') (.refl c) (.refl c'), ?_, ?_⟩
      · intro mem r c₁ c₁' h₁
        exact ⟨h₁.left, h₁.right, h₁.start, (h.leftGrows.trans hgrows).trans h₁.leftGrows,
          (h.rightGrows.trans hgrows').trans h₁.rightGrows, h₁.leftBackend, h₁.rightBackend,
          h₁.size, h₁.now, h₁.fetched⟩
      · exact aligned_of_soundAt hsound hsound' hconfig hfound hfound'
  back_store h mem hmem := h mem (List.mem_cons_of_mem _ hmem)
  back_build h mem hmem :=
    ⟨fun pc hpc => (h mem hmem).1 pc (List.mem_append_right _ hpc), (h mem hmem).2⟩
  memory _ := trivial
  fellOffEnd _ := trivial
  callDepth _ := trivial
  budget := trivial
  outOfFuel := trivial

/-! ### Sessions -/

/-- Compile a function from a memory, which is recorded as the one that it is built from. -/
def compile (entry : UInt64) (mem : Memory) (m : Recorded) : Recorded where
  cpu := m.cpu
  mem := m.mem
  host :=
    { host := { m.host.host with
        compiler := EStateM.after (Compiler.compile entry mem m.host.host.compiler) }
      record := (noteBuild (.jump entry) ⟨m.cpu, mem, m.host⟩).host.record }

/-- Do something to the compiler. -/
def mapCompiler (f : Compiler → Compiler) (m : Recorded) : Recorded :=
  withRecord (m.erase.withCompiler (f m.host.host.compiler)) m.host.record

/-- Emulators that a start leads to by running code, compiling, building, invalidating, flushing and
changing the core and memory from outside, however each of these ends. Memory has no more bytes than
there are addresses. -/
inductive Session : Recorded → Prop where
  | start {mem : Memory} (config : Config) : mem.size < 2 ^ 64 →
    Session (withRecord (.start mem .interpreter config) ⟨[], [], fun _ => mem⟩)
  | execute {m : Recorded} (fuel : Nat) (entry : UInt64) : Session m →
    Session (EStateM.after (execute fuel entry m))
  | compile {m : Recorded} (entry : UInt64) {mem : Memory} : mem.size < 2 ^ 64 → Session m →
    Session (m.compile entry mem)
  | build {m : Recorded} (entry : UInt64) (mem : Memory) : Session m →
    Session (m.mapCompiler fun c => EStateM.after (Compiler.build entry mem c))
  | invalidate {m : Recorded} (addr : UInt64) : Session m →
    Session (m.mapCompiler fun c => (c.invalidate addr).2)
  | flush {m : Recorded} : Session m → Session (m.mapCompiler Compiler.flush)
  | edit {m : Recorded} (cpu : Cpu.State) {mem : Memory} : mem.size < 2 ^ 64 → Session m →
    Session ⟨cpu, mem, m.host⟩

/-- Memory has no more bytes than there are addresses. -/
abbrev Addressed : Memory → Prop := fun mem => mem.size < 2 ^ 64

lemma execute_addressed (fuel : Nat) (entry : UInt64) {m : Recorded} (hmem : Addressed m.mem)
    (hsound : m.host.host.compiler.Sound (Origin Addressed m.host.record)) :
    Run.Matched (fun s t => t = s.erase ∧ Addressed s.mem ∧
        s.host.host.compiler.Sound (Origin Addressed s.host.record) ∧
        Grows m.host.host.compiler s.host.host.compiler) NotVacant
      (execute fuel entry m) (Emulator.execute fuel entry m.erase) :=
  execute_traced Addressed (fun h hwrite => (Memory.size_write hwrite).trans_lt h) fuel entry hmem hsound

/-- In a session memory can be addressed, and all code is built from the memories that are recorded. -/
theorem Session.sound {m : Recorded} (h : Session m) : Addressed m.mem ∧
    m.host.host.compiler.Sound (Origin Addressed m.host.record) ∧
    m.host.host.compiler.backend = .interpreter := by
  induction h with
  | start config hmem => exact ⟨hmem, Compiler.sound_start _ _, rfl⟩
  | @execute m fuel entry _ ih =>
    have hrun := execute_addressed fuel entry ih.1 ih.2.1
    generalize Recorded.execute fuel entry m = r at hrun
    generalize Emulator.execute fuel entry m.erase = r' at hrun
    rcases r with ⟨a, s⟩ | ⟨e, s⟩ <;> rcases r' with ⟨b, t⟩ | ⟨e', t⟩
    · obtain ⟨-, -, hmem, hsound, hgrows⟩ := hrun
      exact ⟨hmem, hsound, hgrows.setup.1.trans ih.2.2⟩
    · exact hrun.elim
    · exact hrun.elim
    · obtain ⟨-, -, -, hmem, hsound, hgrows⟩ := hrun
      exact ⟨hmem, hsound, hgrows.setup.1.trans ih.2.2⟩
  | @compile m entry mem hmem _ ih =>
    obtain ⟨-, hsound, horigin⟩ := noteBuild_spec (m := ⟨m.cpu, mem, m.host⟩) ih.2.1 hmem
      (.jump (a := entry))
    obtain ⟨hsound', hgrows, -⟩ := Sound.compile hsound entry mem horigin
    exact ⟨ih.1, hsound', hgrows.setup.1.trans ih.2.2⟩
  | @build m entry mem _ ih =>
    exact ⟨ih.1, ih.2.1.build entry mem, (Compiler.build_sameSetup entry mem _).1.trans ih.2.2⟩
  | invalidate addr _ ih => exact ⟨ih.1, ih.2.1.invalidate addr, ih.2.2⟩
  | flush _ ih => exact ⟨ih.1, ih.2.1.flush, ih.2.2⟩
  | edit cpu hmem _ ih => exact ⟨hmem, ih.2⟩

/-- An emulator all of whose code is built from memory as it is runs in lockstep with a fresh one. -/
lemma paired_execute {m : Recorded} (hbackend : m.host.host.compiler.backend = .interpreter)
    (hsound : m.host.host.compiler.SoundAt m.mem) (fuel : Nat) (entry : UInt64)
    (hspared : Spared m.mem m.host.host.compiler
      (EStateM.after (execute fuel entry m)).host.record) :
    Run.Matched (Same (Paired m.mem m.host.host.compiler
        (m.host.host.compiler, .start .interpreter m.host.host.compiler.config))) (fun _ => True)
      (execute fuel entry m) (Emulator.execute fuel entry
        { Emulator.start m.mem .interpreter m.host.host.compiler.config with cpu := m.cpu }) := by
  obtain ⟨cpu, mem, ⟨⟨c, depth, budget⟩, record⟩⟩ := m
  have hstart : Same (Paired mem c (c, .start .interpreter c.config))
      ⟨cpu, mem, ⟨⟨c, 0, c.config.loopBudget⟩, ⟨[], [], record.origin⟩⟩⟩
      ⟨cpu, mem, ⟨.start .interpreter c.config, 0, c.config.loopBudget⟩⟩ :=
    ⟨rfl, rfl, rfl, rfl, rfl, hsound, Compiler.sound_start _ _, .refl c, .refl c, .refl _, hbackend,
      rfl, rfl, .inl rfl, fun slot a code hslot => .inl ⟨slot, code, hslot⟩⟩
  exact ((paired_tracking mem c).serve_lockstep fuel _ (.jump entry)).step _ _ hstart
    hspared

/-- How a run ends: its value or error, with the core and memory that it leaves. -/
def ending {H : Type} : EStateM.Result (Halt Error) (Machine H) UInt64 →
    Except (Halt Error) UInt64 × Cpu.State × Memory
  | .ok value m => (.ok value, m.cpu, m.mem)
  | .error e m => (.error e, m.cpu, m.mem)

/-- Memory now has every word that was fetched when code that is installed was built. -/
def UpToDate (m : Recorded) : Prop :=
  ∀ slot a code, m.host.host.compiler.slot? slot = some (.compiled a code) →
    Agree (Compiler.fetched a (m.host.record.origin a) m.host.host.compiler)
      (m.host.record.origin a) m.mem

/-- A memory of one instruction, a return. -/
def returning : Memory := ⟨⟨#[0xc0, 0x03, 0x5f, 0xd6]⟩⟩

/-- The function of a return. -/
def returns : Ir.Function := ⟨0, #[], .body [.ret (.place (.x 30))]⟩

lemma translateBlock_returning (known : UInt64 → Bool) (slots : Linking.Slots Code) :
    Compiler.translateBlock returning known 0 (.start 0 .empty slots) =
      .ok [] ⟨0, 0xd65f03c0, #[.ret (.place (.x 30))], some .stop, .empty, slots⟩ := rfl

/-- What is found of a return. -/
def found : Compiler.Discovery :=
  ⟨.empty, (Flow.Graph.empty.addBlock [.ret (.place (.x 30))]).2, (∅ : Std.HashMap _ _).insert 0 0,
    #[(0, 0, [])]⟩

lemma assemble_returning {config : Config} (hcoalesce : config.coalesce = false) :
    Compiler.assemble config 0 found = .ok returns := by
  have hfound : found.blockOf[(0 : UInt64)]? = some 0 := Std.HashMap.getElem?_insert_self
  have hgraph : found.found.toList.foldlM (Compiler.link found.blockOf) found.graph =
    .ok found.graph := rfl
  have hbody : (found.graph.setEntry 0).structurize = .ok (.body [.ret (.place (.x 30))]) := rfl
  rw [Compiler.assemble_eq, hgraph, hfound]
  simp only [Compiler.finished, hcoalesce, Bool.false_eq_true, if_false, hbody]
  rfl

lemma build_returning {c : Compiler} (hblocks : 0 < c.config.maxBlocks)
    (hcoalesce : c.config.coalesce = false) :
    ∃ c', Compiler.build 0 returning c = .ok returns c' := by
  have hdiscover : ∀ fuel, Compiler.discover returning 0 (fuel + 2) [0] .start c =
      .ok found { c with blocksDiscovered := c.blocksDiscovered + 1 } := by
    intro fuel
    have hnew : Compiler.Discovery.start.blockOf.contains 0 = false := by
      simp [Compiler.Discovery.start]
    have hroom : ¬c.config.maxBlocks ≤ Compiler.Discovery.start.blockOf.size := by
      simpa [Compiler.Discovery.start, Nat.pos_iff_ne_zero] using hblocks
    have hblock : Compiler.discoverBlock returning 0 .start c =
        .ok ([], found) { c with blocksDiscovered := c.blocksDiscovered + 1 } := by
      obtain ⟨backend, config, slots, compilations, blocks, hits⟩ := c
      have h := translateBlock_returning Compiler.Discovery.start.blockOf.contains slots
      simp only [Compiler.discoverBlock]
      rw [show Compiler.Discovery.start.scratch = .empty from rfl, h]
      rfl
    rw [Compiler.discover_cons, hnew, if_neg Bool.false_ne_true, if_neg hroom, hblock]
    rfl
  rw [Compiler.build_eq, hdiscover]
  simp only [assemble_returning hcoalesce]
  exact ⟨_, rfl⟩

/-- Compiling the return gives its function, compiled before or not. -/
lemma compile_returning {c : Compiler} (hsound : c.SoundAt returning)
    (hbackend : c.backend = .interpreter) (hblocks : 0 < c.config.maxBlocks)
    (hcoalesce : c.config.coalesce = false) :
    ∃ c' code, c.compile 0 returning = .ok code c' ∧ code.function = returns ∧
      Compiler.SameSetup c c' ∧ c'.SoundAt returning ∧ c'.compiled? 0 = some code := by
  obtain ⟨y, words, hy⟩ := Compiler.exists_yields 0 returning c.config
  obtain ⟨c', hsound', hgrows, -, hresult⟩ := hsound.compile hbackend hy (.inl rfl) fun _ _ => rfl
  obtain ⟨c₁, hbuild⟩ := build_returning hblocks hcoalesce
  obtain ⟨f, hf, -⟩ := hy.of_build rfl hbuild
  obtain ⟨-, code, -, hcompile, hcode⟩ := hresult.resolve_left fun ⟨e, he, _⟩ => by
    rw [hf] at he
    cases he
  refine ⟨c', code, hcompile, ?_, hgrows.setup, hsound', hcode⟩
  -- whatever code is held was built from this memory, and building gives one function
  obtain ⟨slot, hslot⟩ := hsound'.compiled?_iff.mp hcode
  obtain ⟨_, c₂, rfl, hbuild', -⟩ := hsound'.built slot 0 code hslot
  obtain ⟨c₃, hagain⟩ := build_returning (c := c') (by rwa [hgrows.setup.2])
    (by rwa [hgrows.setup.2])
  rw [hagain] at hbuild'
  injection hbuild' with h
  exact h.symm

lemma noteBuild_returning {m : Recorded} (hsound : m.host.host.compiler.SoundAt returning)
    (hmem : m.mem = returning) (hstored : m.host.record.stored = [])
    (horigin : ∀ a, m.host.record.origin a = returning) :
    ∃ r, m.noteBuild (.jump 0) = withRecord m.erase r ∧ r.stored = [] ∧
      ∀ a, r.origin a = returning := by
  cases hfound : m.host.host.compiler.compiled? 0 with
  | some code => exact ⟨_, noteBuild_of_some hsound .jump hfound, hstored, horigin⟩
  | none =>
    refine ⟨_, noteBuild_of_none hsound .jump hfound, hstored, fun a => ?_⟩
    show (if a = 0 then m.mem else m.host.record.origin a) = returning
    rw [hmem, horigin a, ite_self]

/-- A run of the return, compiled or not: it gives the return address, and stores nothing. -/
lemma execute_returning {m : Recorded} (hsound : m.host.host.compiler.SoundAt returning)
    (hmem : m.mem = returning) (hbackend : m.host.host.compiler.backend = .interpreter)
    (hblocks : 0 < m.host.host.compiler.config.maxBlocks)
    (hcoalesce : m.host.host.compiler.config.coalesce = false)
    (hdepth : 0 < m.host.host.compiler.config.maxDepth)
    (horigin : ∀ a, m.host.record.origin a = returning) :
    ∃ c r, Recorded.execute 2 0 m = .ok (m.cpu.readX 30 .w64) ⟨m.cpu, returning,
        ⟨⟨c, 0, m.host.host.compiler.config.loopBudget⟩, r⟩⟩ ∧
      Compiler.SameSetup m.host.host.compiler c ∧ c.SoundAt returning ∧ (c.compiled? 0).isSome ∧
      r.stored = [] ∧ ∀ a, r.origin a = returning := by
  obtain ⟨cpu, mem, ⟨⟨c, depth, budget⟩, record⟩⟩ := m
  obtain rfl : mem = returning := hmem
  obtain ⟨c', code, hcompile, hfunction, hsetup, hsound', hcode⟩ :=
    compile_returning hsound hbackend hblocks hcoalesce
  -- what is recorded before the code runs
  let s : Recorded := ⟨cpu, returning, ⟨⟨c, 0, c.config.loopBudget⟩, ⟨[], [], record.origin⟩⟩⟩
  obtain ⟨r, hnoted, hstored, horigin'⟩ := noteBuild_returning (m := s) hsound rfl rfl horigin
  refine ⟨c', r, ?_, hsetup, hsound', by rw [hcode]; rfl, hstored, horigin'⟩
  have hresolve : Recorded.resolve (.jump 0) s =
      .ok code ⟨cpu, returning, ⟨⟨c', 0, c.config.loopBudget⟩, r⟩⟩ := by
    have hplain : Emulator.resolve (.jump 0) s.erase =
        .ok code ⟨cpu, returning, ⟨c', 0, c.config.loopBudget⟩⟩ := by
      show Emulator.compile 0 s.erase = _
      simp only [s, erase, Emulator.compile, hcompile]
    rw [Recorded.resolve, plainly, hnoted]
    rw [show (withRecord s.erase r).erase = s.erase from rfl, hplain]
    rfl
  show Recorded.serve 2 (.jump 0) s = _
  rw [serve_succ, EStateM.bind_ok hresolve, runCode, if_neg]
  · rw [hfunction]
    rfl
  · rw [hsetup.2]
    exact Nat.not_le.mpr hdepth

end Recorded

end Dynarec
