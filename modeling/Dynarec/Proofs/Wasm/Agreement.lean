import Dynarec.Proofs.Wasm.Shapes

/-!
# Modules agree with the interpreter

Running the module of a function does what running the function directly does, with the same bound for loops:
it returns the same value, or stops where the function stops, and calls the host for the same, in the same
processor state and with the same guest memory. The imported functions are those of any host that serves as
the interpreter's does.
-/

namespace Dynarec.Wasm

open Ir (Op Place Operand)
open Interp (Frame Event)

variable {H : Type} {r fuel : Nat} {image : UInt32} {f : Ir.Function} {o : Options} {m : Module}
  {services : Interp.Services H} {imported : Imported Error H} {machine : Machine H} {shared : Instance H}

/-- A function and its module end alike: with the same value, with what the function's failure becomes, or at
the bound; and what is shared holds the machine then. -/
abbrev Agree (r : Nat) (image : UInt32) :
    EStateM.Result (Halt Error) (Machine H) UInt64 →
      EStateM.Result (Halt (Trap Error)) (Instance H) UInt64 → Prop :=
  Simulated (fun v m w shared => v = w ∧ Holds r image m shared) (Holds r image)

/-- The locals of a function that starts. -/
lemma locals_start (m : Module) (image : UInt32) (shared : Instance H) : (m.start image shared).locals =
    (.i32 image :: (List.replicate m.longLocals (.i64 0) ++ [.i32 0])).toArray := by
  simp [Module.start, Module.localGroups, ValType.zero]

/-- What is shared holds the machine of a function that starts, whose locals are zero. -/
lemma tracks_start (hm : m.longLocals = (contextOf f o).longLocals) (h : Holds r image machine shared) :
    Tracks (contextOf f o) r image ⟨machine, Array.replicate f.locals.size 0⟩ 0 (m.start image shared) where
  holds := h
  size := by rw [Module.size_start, hm]
  count := Array.size_replicate
  param := rfl
  scratch l hl := by
    have hlt : l.id < f.locals.size := hl
    have hlong : l.id < m.longLocals := by
      rw [hm]
      exact Nat.lt_add_right 3 hlt
    rw [locals_start, Context.valueLocal, Nat.add_comm, List.getElem?_toArray, List.getElem?_cons_succ,
      List.getElem?_append_left (by rwa [List.length_replicate]), List.getElem?_replicate_of_lt hlong]
    simp [Array.getD_eq_getD_getElem?, hlt]
  dispatch := by
    rw [locals_start, Context.dispatchLocal, ← hm, List.getElem?_toArray, List.getElem?_cons_succ,
      List.getElem?_append_right (by rw [List.length_replicate]), List.length_replicate, Nat.sub_self]
    rfl

/-- Outside of all constructs there is nothing to count. -/
lemma bind_settle_nil (services : Interp.Services H) (x : Run Error (Frame H) (Shape.Control × Nat)) :
    x >>= settle services [] = x := by
  have hpure : settle services [] = (pure : Shape.Control × Nat → Run Error (Frame H) _) := by
    funext left
    obtain ⟨ctrl, d⟩ := left
    cases ctrl <;> rfl
  rw [hpure, bind_pure]

section
variable {frame : Frame H} {a : Activation H}

/-- The value of a function is what its body returns. -/
lemma invoke_of_ret {value : UInt64} {d : Nat} (h : f.body.run (Interp.visitor services f.locals) fuel 0
    ⟨machine, .replicate f.locals.size 0⟩ = .ok (.ret value, d) frame) :
    Interp.invoke services fuel f machine = .ok value frame.machine := by
  rw [Interp.invoke, Shape.walk, EStateM.bind_ok h]
  rfl

/-- A function whose body comes to its end has not returned. -/
lemma invoke_of_next {d : Nat} (h : f.body.run (Interp.visitor services f.locals) fuel 0
    ⟨machine, .replicate f.locals.size 0⟩ = .ok (.next, d) frame) :
    Interp.invoke services fuel f machine =
      .error (.error (.invariant (.fellOffEnd f.entry))) frame.machine := by
  rw [Interp.invoke, Shape.walk, EStateM.bind_ok h]
  rfl

lemma invoke_of_error {e : Halt Error} (h : f.body.run (Interp.visitor services f.locals) fuel 0
    ⟨machine, .replicate f.locals.size 0⟩ = .error e frame) :
    Interp.invoke services fuel f machine = .error e frame.machine := by
  rw [Interp.invoke, Shape.walk, EStateM.bind_error h]

/-- The value of a module is what its body returns. -/
lemma Module.run_of_ret {value : UInt64}
    (h : Instruction.execAll ⟨m.imports, imported⟩ fuel m.body [] (m.start image shared) =
      .ok (.ret [.i64 value]) a) : m.run imported fuel image shared = .ok value a.shared := by
  unfold Module.start at h
  rw [Module.run, h]

lemma Module.run_of_error {e : Halt (Trap Error)}
    (h : Instruction.execAll ⟨m.imports, imported⟩ fuel m.body [] (m.start image shared) = .error e a) :
    m.run imported fuel image shared = .error e a.shared := by
  unfold Module.start at h
  rw [Module.run, h]

end

/-- A module agrees with its function. -/
lemma Module.run_agree (hm : moduleOf f o = .ok m) (hram : o.ramBytes = some r) (hdeclared : f.Declared)
    (hencoded : Encoded f.body) (hs : Serves r image services imported) (h : Holds r image machine shared) :
    Agree r image (Interp.invoke services fuel f machine) (m.run imported fuel image shared) := by
  obtain ⟨-, code, hcode, hmodule⟩ := moduleOf_eq_ok hm
  have hlong : m.longLocals = (contextOf f o).longLocals := by
    rw [hmodule]
    rfl
  have hl : Linked (contextOf f o) r image services ⟨m.imports, imported⟩ := ⟨hs, by rw [hmodule]; rfl, hram⟩
  have hcounted : Counted (contextOf f o) [] f.body :=
    ⟨nofun, fun label inner hloop => tick_mem_importsOf.2 ⟨label, inner, hloop⟩⟩
  have hends : ShapeEnds (contextOf f o) r image []
      (f.body.run (Interp.visitor services f.locals) fuel 0 ⟨machine, .replicate f.locals.size 0⟩)
      (Instruction.execAll ⟨m.imports, imported⟩ fuel code [] (m.start image shared)) := by
    rw [← bind_settle_nil services (f.body.run (Interp.visitor services f.locals) fuel 0)]
    exact shape_ends hl fuel hdeclared hencoded hcounted hcode (by decide) (tracks_start hlong h)
  have hbody := Instruction.execAll_append ⟨m.imports, imported⟩ fuel code [.unreachable] []
  rw [show code ++ [.unreachable] = m.body by rw [hmodule]] at hbody
  cases hrun : f.body.run (Interp.visitor services f.locals) fuel 0 ⟨machine, .replicate f.locals.size 0⟩ with
  | error e frame =>
    rw [hrun] at hends
    rw [invoke_of_error hrun]
    cases hexec : Instruction.execAll ⟨m.imports, imported⟩ fuel code [] (m.start image shared) with
    | error e' a =>
      rw [hexec] at hends
      rw [Module.run_of_error (hbody ▸ EStateM.bind_error hexec)]
      cases e <;> cases e' <;> exact hends
    | ok left a =>
      rw [hexec] at hends
      cases e <;> exact hends.elim
  | ok left frame =>
    rw [hrun] at hends
    cases hexec : Instruction.execAll ⟨m.imports, imported⟩ fuel code [] (m.start image shared) with
    | error e' a =>
      rw [hexec] at hends
      exact hends.elim
    | ok left' a =>
      rw [hexec] at hends
      obtain ⟨ctrl, d⟩ := left
      obtain ⟨hleft, -, h'⟩ := hends
      have hrest := hbody ▸ EStateM.bind_ok hexec
      cases ctrl with
      | next =>
        cases hleft
        rw [invoke_of_next hrun, Module.run_of_error hrest]
        exact ⟨.fellOffEnd f.entry, h'.holds⟩
      | ret value =>
        cases hleft
        rw [invoke_of_ret hrun, Module.run_of_ret hrest]
        exact ⟨rfl, h'.holds⟩
      | jump label =>
        obtain ⟨depth, hdepth, -⟩ := hleft
        cases hdepth

/-- A module is made of every function whose locals are declared, whose numbers its fields can have and whose
jumps all lead to a construct around them. For a guest memory of `r` bytes at address zero, the register image
of a normalized state above it, and imported functions that serve as a host does, running the module ends as
running the function does: with the same value, by a trap where the function fails for guest memory or has not
returned, or where the host fails, or at the bound. The registers, guest memory and the host are the same then,
and so are the calls of the host, in order, with the registers and guest memory at each of them. -/
theorem emitFunction_agrees (f : Ir.Function) (o : Options) {r : Nat} (hlimits : o.Limited)
    (hram : o.ramBytes = some r) (hdeclared : f.Declared) (hencoded : Encoded f.body)
    (hscoped : f.body.Scoped []) :
    ∃ m, moduleOf f o = .ok m ∧ emitFunction f o = .ok m.encode ∧
      ∀ {H : Type} (services : Interp.Services H) (imported : Imported Error H) (image : UInt32),
        Serves r image services imported →
        ∀ (fuel : Nat) (machine : Machine H) (shared : Instance H) (log : List Event),
          Holds r image machine shared →
            Agree r image (Interp.invoke services fuel f machine) (m.run imported fuel image shared) ∧
            Agree r image
              (Interp.invoke services.recorded fuel f ⟨machine.cpu, machine.mem, machine.host, log⟩)
              (m.run (imported.recorded r) fuel image ⟨shared.memory, shared.host, log⟩) := by
  obtain ⟨m, hm⟩ := exists_moduleOf.2 ⟨hlimits, hscoped⟩
  refine ⟨m, hm, emitFunction_eq_ok.2 ⟨m, hm, rfl⟩, fun services imported image hs fuel machine shared log h =>
    ⟨Module.run_agree hm hram hdeclared hencoded hs h, ?_⟩⟩
  exact Module.run_agree hm hram hdeclared hencoded hs.recorded (holds_log_iff.2 ⟨h, rfl⟩)

/-- A function that calls a slot until a register is not zero, stores the register and returns it. -/
def polling : Ir.Function :=
  ⟨0, #[], .seq [.loop 0 (.cond (.cond (.place (.x 0))) (.seq []) (.seq [.body [.call (.x 0) 1], .br 0])),
    .body [.store .double (.imm 0) (.place (.x 0)), .ret (.place (.x 0))]]⟩

/-- A host whose functions return to address 7. -/
def answering : Interp.Services Unit := ⟨fun _ => pure 7, pure ()⟩

/-- A machine after reset with eight bytes of memory. -/
def small : Machine Unit := ⟨.reset, .zeroed 8, ()⟩

lemma small_run : Interp.invoke answering.recorded 2 polling ⟨small.cpu, small.mem, (), []⟩ =
    .ok 7 ⟨small.cpu.writeX 0 .w64 7, ⟨Bytes.ofWord 8 7⟩, (),
      [⟨.request (.call 1), small.cpu, Bytes.zeros 8⟩, ⟨.tick, small.cpu.writeX 0 .w64 7, Bytes.zeros 8⟩]⟩ := by
  rfl

/-- What is shared before the function runs: the machine, with the register image after guest memory. -/
def smallShared : Instance Unit := Instance.hold ⟨Bytes.zeros (8 + Cpu.State.byteSize), ()⟩ 8 8 small

lemma smallShared_holds : Holds 8 8 small smallShared := by
  have hsize : (Bytes.zeros (8 + Cpu.State.byteSize)).size = 8 + Cpu.State.byteSize := Bytes.size_zeros _
  refine holds_hold ⟨?_, Cpu.State.normalized_reset⟩ (by decide) ?_ ?_
  · rfl
  · rw [hsize]
    decide
  · rw [hsize]
    decide

lemma polling_encoded : Encoded polling.body := by
  refine .of_usesDispatch rfl fun os o hos ho => ?_
  have hos := Shape.mem_bodies_iff.2 hos
  simp only [polling, Shape.bodies, Shape.bodiesList, List.append_nil, List.nil_append, List.mem_append,
    List.mem_singleton] at hos
  rcases hos with rfl | rfl
  · cases ho with
    | head => exact show 1 < 2 ^ 32 by decide
    | tail ho => cases ho
  · cases ho with
    | head => trivial
    | tail ho => cases ho with
      | head => trivial
      | tail ho => cases ho

theorem emitFunction_agrees_polling :
    ∃ (m : Module) (shared : Instance (Unit × List Event)), emitFunction polling (sized 8) = .ok m.encode ∧
      m.run ((exported answering 8).recorded 8) 2 8 ⟨smallShared.memory, (), []⟩ = .ok 7 shared ∧
      shared.memory.extract 0 8 = Bytes.ofWord 8 7 ∧
      shared.host.2 = [⟨.request (.call 1), small.cpu, Bytes.zeros 8⟩,
        ⟨.tick, small.cpu.writeX 0 .w64 7, Bytes.zeros 8⟩] := by
  obtain ⟨m, -, hbytes, hagree⟩ := emitFunction_agrees polling (sized 8) ⟨show 1 ≤ 65536 by decide, nofun⟩
    rfl
    (by simp [Ir.Function.Declared, polling, Shape.All, Shape.AllOf, Op.AllDeclared, Op.Declared, Place.Declared,
      Operand.Declared])
    polling_encoded
    (by simp [polling, Shape.Scoped, Shape.ScopedAll])
  have hserves : Serves 8 8 answering (exported answering 8) :=
    serves_exported answering 8 8 (fun _ _ h => h) fun _ h => h
  obtain ⟨-, hrun⟩ := hagree answering _ 8 hserves 2 small smallShared [] smallShared_holds
  rw [small_run] at hrun
  cases hm : m.run ((exported answering 8).recorded 8) 2 8 ⟨smallShared.memory, (), []⟩ with
  | ok w shared =>
    have hrun : Simulated _ _ _ (EStateM.Result.ok w shared) := hm ▸ hrun
    obtain ⟨rfl, h⟩ := hrun
    exact ⟨m, shared, hbytes, hm, h.ram, congrArg Prod.snd h.host⟩
  | error e shared => exact absurd hrun (by rw [hm]; exact id)

end Dynarec.Wasm
