import Dynarec.Proofs.Interp.Kept
import Dynarec.Proofs.Interp.Observe
import Dynarec.Proofs.Shape.Cut

/-!
# Traced runs of functions

A run whose host notes the processor state and memory after every operation, so that it sees every
effect of the run in order. A host that notes nothing sees the run as it is. When the requests of a
function outlast those of another host, so does the function.
-/

namespace Dynarec.Interp

open Ir (Op Operand Ty)
open Dynarec.EStateM (CutShort)
open Run (Lockstep Maintains)

variable {H H' α β : Type}

/-- Let the host note the processor state and memory. -/
def noteEffects (noting : Cpu.State → Memory → H → H) : Run Error (Frame H) Unit :=
  fun ⟨⟨cpu, mem, host⟩, locals⟩ => .ok () ⟨⟨cpu, mem, noting cpu mem host⟩, locals⟩

mutual

/-- Run one operation, with its effects noted. -/
def traceOp (noting : Cpu.State → Memory → H → H) (services : Services H) (types : Array Ty) :
    Op → Run Error (Frame H) (Option UInt64)
  | .branch cond ifTrue ifFalse => do
    if (← read cond) != 0 then traceOps noting services types ifTrue
    else traceOps noting services types ifFalse
  | op => do
    let r ← runOp services types op
    noteEffects noting
    return r

/-- Run operations one after the other until one returns, with their effects noted. -/
def traceOps (noting : Cpu.State → Memory → H → H) (services : Services H) (types : Array Ty) :
    List Op → Run Error (Frame H) (Option UInt64)
  | [] => return none
  | op :: rest => do
    match ← traceOp noting services types op with
    | some value => return some value
    | none => traceOps noting services types rest

end

/-- The meaning of the bodies and conditions of a function that is traced. -/
def tracer (noting : Cpu.State → Memory → H → H) (services : Services H) (types : Array Ty) :
    Shape.Visitor (List Op) Operand Error (Frame H) where
  body := traceOps noting services types
  test := (visitor services types).test
  backEdge := (visitor services types).backEdge

/-- Run a function with its effects noted. -/
def trace (noting : Cpu.State → Memory → H → H) (services : Services H) (fuel : Nat)
    (f : Ir.Function) : Run Error (Machine H) UInt64 :=
  finish f (f.body.walk (tracer noting services f.locals) fuel)

/-- A walk that stops where the traced function stops. -/
lemma stopped_of_trace {noting : Cpu.State → Memory → H → H} {s : Services H} {fuel : Nat}
    {f : Ir.Function} {m : Machine H} (h : Run.Stopped (trace noting s fuel f m)) :
    Run.Stopped (f.body.walk (tracer noting s f.locals) fuel
      ⟨m, Array.replicate f.locals.size 0⟩) := by
  unfold trace finish at h
  cases hw : f.body.walk (tracer noting s f.locals) fuel ⟨m, Array.replicate f.locals.size 0⟩ with
  | ok r frame => trivial
  | error e frame =>
    rw [hw] at h
    exact Run.stopped_error h

section
variable {K : Run.Congruence Error (Frame H) (Frame H')} {types : Array Ty} {s : Services H}
  {t : Services H'} {noting : Cpu.State → Memory → H → H} {noting' : Cpu.State → Memory → H' → H'}

mutual

lemma traceOp_rel (hnote : K.Rel (noteEffects noting) (noteEffects noting'))
    (h : Related K types s t) :
    (op : Op) → K.Rel (traceOp noting s types op) (traceOp noting' t types op)
  | .branch cond ifTrue ifFalse => by
    simp only [traceOp]
    apply K.bind (h.read cond)
    intro c
    split
    · exact traceOps_rel hnote h ifTrue
    · exact traceOps_rel hnote h ifFalse
  | .mov .. | .bin .. | .cmp .. | .select .. | .extend .. | .load .. | .store .. | .call ..
  | .jump .. | .ret _ => by
    simp only [traceOp]
    exact K.bind (runOp_rel h _) fun _ => K.bind hnote fun _ => K.pure _

lemma traceOps_rel (hnote : K.Rel (noteEffects noting) (noteEffects noting'))
    (h : Related K types s t) :
    (ops : List Op) → K.Rel (traceOps noting s types ops) (traceOps noting' t types ops)
  | [] => by
    simp only [traceOps]
    exact K.pure _
  | op :: rest => by
    simp only [traceOps]
    apply K.bind (traceOp_rel hnote h op)
    intro r
    cases r with
    | some value => exact K.pure _
    | none => exact traceOps_rel hnote h rest

end

end

/-! ### Noting nothing -/

/-- To note nothing after a computation is to do nothing. -/
lemma bind_noteEffects_nothing (x : Run Error (Frame H) α) :
    (do let r ← x; noteEffects (fun _ _ h => h); return r) = x := by
  funext f
  cases h : x f with
  | ok r f' =>
    rw [EStateM.bind_ok h]
    rfl
  | error e f' => rw [EStateM.bind_error h]

mutual

lemma traceOp_nothing (services : Services H) (types : Array Ty) :
    (op : Op) → traceOp (fun _ _ h => h) services types op = runOp services types op
  | .branch cond ifTrue ifFalse => by
    rw [traceOp, runOp, traceOps_nothing services types ifTrue,
      traceOps_nothing services types ifFalse]
  | .mov .. | .bin .. | .cmp .. | .select .. | .extend .. | .load .. | .store .. | .call ..
  | .jump .. | .ret _ => by
    rw [traceOp]
    · exact bind_noteEffects_nothing _
    · simp

lemma traceOps_nothing (services : Services H) (types : Array Ty) :
    (ops : List Op) → traceOps (fun _ _ h => h) services types ops = runOps services types ops
  | [] => by rw [traceOps, runOps]
  | op :: rest => by
    rw [traceOps, runOps]
    refine congrArg₂ Bind.bind (traceOp_nothing services types op) (funext fun r => ?_)
    cases r with
    | none => exact traceOps_nothing services types rest
    | some value => rfl

end

/-- A host that notes nothing does not change a run. -/
theorem trace_nothing (services : Services H) (fuel : Nat) (f : Ir.Function) :
    trace (fun _ _ h => h) services fuel f = invoke services fuel f := by
  have htracer : tracer (fun _ _ h => h) services f.locals = visitor services f.locals := by
    have hbody := funext (traceOps_nothing services f.locals)
    unfold tracer
    rw [hbody]
    rfl
  rw [trace, htracer]
  rfl

/-! ### Runs that are cut off -/

/-- Machines are related when they have one processor state and one memory and their hosts are
related. -/
def OnHosts (R : H → H' → Prop) (m : Machine H) (m' : Machine H') : Prop :=
  m'.cpu = m.cpu ∧ m'.mem = m.mem ∧ R m.host m'.host

/-- The host of a machine has that of another one as a part. -/
abbrev HostPart (P : H → H' → Prop) : Machine H → Machine H' → Prop := fun m m' => P m.host m'.host

/-- The host below a frame has that of another one as a part. -/
abbrev FramePart (P : H → H' → Prop) : Frame H → Frame H' → Prop :=
  fun f f' => P f.machine.host f'.machine.host

/-- Of two computations on frames the second outlasts the first. -/
abbrev FrameCutShort (R P : H → H' → Prop) (cut : Halt Error → Prop)
    (x : Run Error (Frame H) α) (y : Run Error (Frame H') α) : Prop :=
  CutShort (OnFrames (OnHosts R)) (FramePart P) cut x y

/-- Requests and charges of one host outlast those of another one. -/
structure Services.CutShort (R P : H → H' → Prop) (cut : Halt Error → Prop) (s : Services H)
    (t : Services H') : Prop where
  request (r : Request) : EStateM.CutShort (OnHosts R) (HostPart P) cut (s.request r) (t.request r)
  tick : EStateM.CutShort (OnHosts R) (HostPart P) cut s.tick t.tick

section
variable {R P : H → H' → Prop} {cut : Halt Error → Prop} {types : Array Ty}

/-- Running operations keeps hosts related, when nothing is noted. -/
lemma coupling_onHosts (R : H → H' → Prop) :
    Coupling (fun _ => True) (OnHosts R) (fun _ => True) (fun _ h => h) fun _ h => h where
  cpu h := h.1
  mem h := h.2.1
  write h _ := ⟨rfl, h.2.1, h.2.2⟩
  store h _ _ := ⟨h.1, rfl, h.2.2⟩
  back _ := trivial
  memory _ := trivial
  fellOffEnd _ := trivial
  outOfFuel := trivial

/-- Runs that go the same way are not cut off. -/
lemma cutShort_of_lockstep {σ τ : Type} {R P : σ → τ → Prop} {x : Run Error σ α} {y : Run Error τ α}
    (h : Lockstep (fun _ => True) R (fun _ => True) x y) (hy : ∀ s, Maintains (P s) y) :
    CutShort R P cut x y := by
  refine ⟨hy, fun s t hst => ?_⟩
  have hstep := h.step s t hst trivial
  generalize x s = r at hstep
  generalize y t = r' at hstep
  rcases r with ⟨a, s'⟩ | ⟨e, s'⟩ <;> rcases r' with ⟨b, t'⟩ | ⟨e', t'⟩
  · obtain ⟨rfl, h'⟩ := hstep
    exact .ok h'
  · exact hstep.elim
  · exact hstep.elim
  · obtain ⟨rfl, -, h'⟩ := hstep
    exact .error h'

/-- A computation that leaves the host alone keeps what is a part of it. -/
lemma maintains_of_host {y : Run Error (Frame H') α} {Q : H' → Prop}
    (h : ∀ f, (EStateM.after (y f)).machine.host = f.machine.host) :
    Maintains (fun f => Q f.machine.host) y := by
  intro f hf
  rwa [h f]

lemma read_cutShort (operand : Operand) :
    FrameCutShort R P cut (read operand) (read operand) :=
  cutShort_of_lockstep ((coupling_onHosts R).read operand) fun _ =>
    maintains_of_host (Q := P _) fun _ => rfl

lemma write_cutShort (place : Ir.Place) (value : UInt64) :
    FrameCutShort R P cut (write types place value) (write types place value) :=
  cutShort_of_lockstep ((coupling_onHosts R).writePlace place value) fun _ =>
    maintains_of_host (Q := P _) fun f => host_write types f place value

lemma load_cutShort (addr : UInt64) (size : AccessSize) :
    FrameCutShort R P cut (load addr size) (load addr size) := by
  refine cutShort_of_lockstep ((coupling_onHosts R).load addr size) fun _ =>
    maintains_of_host (Q := P _) fun f => ?_
  unfold load
  cases f.machine.mem.read addr size <;> rfl

lemma store_lockstep (R : H → H' → Prop) (addr : UInt64) (size : AccessSize) (value : UInt64) :
    Lockstep (fun _ => True) (OnFrames (OnHosts R)) (fun _ => True) (store addr size value)
      (store addr size value) where
  back _ _ := trivial
  step := by
    rintro ⟨⟨cpu, mem, host⟩, locals⟩ ⟨⟨cpu', mem', host'⟩, locals'⟩ ⟨⟨hcpu, hmem, hR⟩, hlocals⟩ _
    obtain rfl : cpu' = cpu := hcpu
    obtain rfl : mem' = mem := hmem
    obtain rfl : locals' = locals := hlocals
    simp only [store]
    cases Memory.write addr size value mem' with
    | ok u mem => exact ⟨rfl, ⟨rfl, rfl, hR⟩, rfl⟩
    | error e mem => exact ⟨rfl, trivial, ⟨rfl, rfl, hR⟩, rfl⟩

lemma store_cutShort (addr : UInt64) (size : AccessSize) (value : UInt64) :
    FrameCutShort R P cut (store addr size value) (store addr size value) := by
  refine cutShort_of_lockstep (store_lockstep R addr size value) fun _ =>
    maintains_of_host (Q := P _) ?_
  rintro ⟨⟨cpu, mem, host⟩, locals⟩
  simp only [store]
  cases Memory.write addr size value mem <;> rfl

lemma onMachine_cutShort {x : Run Error (Machine H) α} {y : Run Error (Machine H') α}
    (h : CutShort (OnHosts R) (HostPart P) cut x y) :
    FrameCutShort R P cut (onMachine x) (onMachine y) where
  grows f := by
    rintro ⟨m, locals⟩ hf
    have hy := h.grows f.machine m hf
    cases hm : y m with
    | ok a m₁ =>
      rw [hm] at hy
      rw [onMachine_ok hm]
      exact hy
    | error e m₁ =>
      rw [hm] at hy
      rw [onMachine_error hm]
      exact hy
  outlasts := by
    rintro ⟨m, locals⟩ ⟨m', locals'⟩ ⟨hm, rfl⟩
    have hout := h.outlasts m m' hm
    generalize hx : x m = r at hout
    generalize hy : y m' = r' at hout
    cases hout with
    | ok h₁ =>
      rw [onMachine_ok hx, onMachine_ok hy]
      exact .ok ⟨h₁, rfl⟩
    | error h₁ =>
      rw [onMachine_error hx, onMachine_error hy]
      exact .error ⟨h₁, rfl⟩
    | cut he h₁ =>
      rw [onMachine_error hx]
      refine .cut he ?_
      cases r' with
      | ok a m₁ =>
        rw [onMachine_ok hy]
        exact h₁
      | error e m₁ =>
        rw [onMachine_error hy]
        exact h₁

/-- What two hosts note keeps them related and takes no part away. -/
structure Notes (R P : H → H' → Prop) (noting : Cpu.State → Memory → H → H)
    (noting' : Cpu.State → Memory → H' → H') : Prop where
  related {h : H} {h' : H'} (cpu : Cpu.State) (mem : Memory) :
    R h h' → R (noting cpu mem h) (noting' cpu mem h')
  grows {h : H} {h' : H'} (cpu : Cpu.State) (mem : Memory) : P h h' → P h (noting' cpu mem h')

variable {noting : Cpu.State → Memory → H → H} {noting' : Cpu.State → Memory → H' → H'}
  {s : Services H} {t : Services H'}

lemma Notes.noteEffects (h : Notes R P noting noting') :
    FrameCutShort R P cut (noteEffects noting) (noteEffects noting') where
  grows _ _ hf := h.grows _ _ hf
  outlasts := by
    rintro ⟨⟨cpu, mem, host⟩, locals⟩ ⟨⟨cpu', mem', host'⟩, locals'⟩ ⟨⟨rfl, rfl, hR⟩, rfl⟩
    exact .ok ⟨⟨rfl, rfl, h.related _ _ hR⟩, rfl⟩

lemma Services.CutShort.related (hs : s.CutShort R P cut t) :
    Related (.cutShort (OnFrames (OnHosts R)) (FramePart P) cut) types s t where
  read := read_cutShort
  write := write_cutShort
  load := load_cutShort
  store := store_cutShort
  request r := onMachine_cutShort (hs.request r)

/-- A function outlasts itself under a host whose requests and charges may be cut off. -/
theorem trace_cutShort (hn : Notes R P noting noting') (hs : s.CutShort R P cut t)
    (hRP : ∀ h h', R h h' → P h h') {fuel fuel' : Nat} (hfuel : Run.Enough cut fuel fuel')
    (f : Ir.Function) :
    CutShort (OnHosts R) (HostPart P) cut (trace noting s fuel f) (trace noting' t fuel' f) := by
  have hw : FrameCutShort R P cut (f.body.walk (tracer noting s f.locals) fuel)
      (f.body.walk (tracer noting' t f.locals) fuel') :=
    Shape.walk_cutShort (fun _ _ h => hRP _ _ h.1.2.2)
      ⟨fun b => traceOps_rel hn.noteEffects hs.related b, fun c => (read_cutShort c).bind fun _ =>
        EStateM.cutShort_pure _, onMachine_cutShort hs.tick⟩ hfuel f.body
  have hafter : ∀ m, (EStateM.after (trace noting' t fuel' f m)).host =
      (EStateM.after (f.body.walk (tracer noting' t f.locals) fuel'
        ⟨m, Array.replicate f.locals.size 0⟩)).machine.host := by
    intro m
    unfold trace finish
    rcases f.body.walk (tracer noting' t f.locals) fuel' ⟨m, Array.replicate f.locals.size 0⟩ with
      ⟨_ | _, frame⟩ | ⟨e, frame⟩ <;> rfl
  constructor
  · intro m m' h
    change P m.host _
    rw [hafter]
    exact hw.grows ⟨m, #[]⟩ ⟨m', Array.replicate f.locals.size 0⟩ h
  · intro m m' h
    have hout := hw.outlasts ⟨m, Array.replicate f.locals.size 0⟩
      ⟨m', Array.replicate f.locals.size 0⟩ ⟨h, rfl⟩
    have hafter := hafter m'
    unfold trace finish at hafter ⊢
    generalize f.body.walk (tracer noting s f.locals) fuel
      ⟨m, Array.replicate f.locals.size 0⟩ = r at hout ⊢
    generalize f.body.walk (tracer noting' t f.locals) fuel'
      ⟨m', Array.replicate f.locals.size 0⟩ = r' at hout hafter ⊢
    cases hout with
    | @ok a _ _ h₁ =>
      cases a with
      | none => exact .error h₁.1
      | some value => exact .ok h₁.1
    | error h₁ => exact .error h₁.1
    | cut he h₁ =>
      refine .cut he ?_
      change P _ _
      rw [hafter]
      exact h₁

end

/-- A property of hosts that requests, charges and notes maintain is maintained by a traced function. -/
lemma trace_maintains_host {Q : H → Prop} {s : Services H} {noting : Cpu.State → Memory → H → H}
    (hnoting : ∀ cpu mem h, Q h → Q (noting cpu mem h))
    (hrequest : ∀ r, Maintains (fun m => Q m.host) (s.request r))
    (htick : Maintains (fun m => Q m.host) s.tick) (fuel : Nat) (f : Ir.Function) :
    Maintains (fun m => Q m.host) (trace noting s fuel f) := by
  -- the function outlasts itself under a host that is cut off at once
  have hn : Notes (fun (_ : Unit) h => Q h) (fun _ h => Q h) (fun _ _ h => h) noting :=
    ⟨fun cpu mem h => hnoting cpu mem _ h, fun cpu mem h => hnoting cpu mem _ h⟩
  have hs : Services.CutShort (fun (_ : Unit) h => Q h) (fun _ h => Q h) (fun _ => True)
      ⟨fun _ => throw .outOfFuel, throw .outOfFuel⟩ s :=
    ⟨fun r => EStateM.cutShort_cut trivial (fun _ _ h => h.2.2) fun _ => hrequest r,
      EStateM.cutShort_cut trivial (fun _ _ h => h.2.2) fun _ => htick⟩
  exact (trace_cutShort hn hs (fun _ _ h => h) (.inl rfl) f).grows ⟨.reset, .zeroed 0, ()⟩

/-! ### Where effects end -/

section
variable {N : Machine H → Prop} {types : Array Ty} {s : Services H}
  {noting : Cpu.State → Memory → H → H}

/-- A computation on frames that leaves a property of machines behind when it fails. -/
def FailsIn (N : Machine H → Prop) (x : Run Error (Frame H) α) : Prop :=
  ∀ f, N f.machine → ∀ e f', x f = .error e f' → N f'.machine

lemma failsIn_bind {x : Run Error (Frame H) α} {g : α → Run Error (Frame H) β}
    (hx : Maintains (OfMachine N) x) (hg : ∀ a, FailsIn N (g a)) : FailsIn N (x >>= g) := by
  intro f hf e f' h
  have hafter := hx f hf
  rcases EStateM.of_bind_error h with h | ⟨a, f₁, hx₁, h⟩
  · rwa [h] at hafter
  · rw [hx₁] at hafter
    exact hg a f₁ hafter e f' h

lemma writeNone_failsIn (place : Ir.Place) (value : UInt64) :
    FailsIn N
      (do write types place value; return none : Run Error (Frame H) (Option UInt64)) := by
  intro f _ e f' h
  cases h

/-- An operation that fails has changed nothing since the property was last left, if what it asks of
the host leaves the property. -/
lemma runOp_failsIn (hrequest : ∀ r, Maintains N (s.request r)) {op : Op}
    (hop : ∀ cond ifTrue ifFalse, op ≠ .branch cond ifTrue ifFalse) :
    FailsIn N (runOp s types op) := by
  cases op with
  | mov width dst src =>
    simp only [runOp]
    exact failsIn_bind (read_maintains src) fun _ => writeNone_failsIn _ _
  | bin op width dst lhs rhs | cmp op width dst lhs rhs =>
    simp only [runOp]
    exact failsIn_bind (read_maintains lhs) fun _ =>
      failsIn_bind (read_maintains rhs) fun _ => writeNone_failsIn _ _
  | select dst cond ifTrue ifFalse =>
    simp only [runOp]
    refine failsIn_bind (read_maintains cond) fun c => ?_
    by_cases hcond : (c != 0) = true
    · simp only [hcond, if_true]
      exact failsIn_bind (read_maintains ifTrue) fun _ => writeNone_failsIn _ _
    · simp only [hcond]
      exact failsIn_bind (read_maintains ifFalse) fun _ => writeNone_failsIn _ _
  | extend bits signed dst src =>
    simp only [runOp]
    exact failsIn_bind (read_maintains src) fun _ => writeNone_failsIn _ _
  | load size dst addr =>
    simp only [runOp]
    refine failsIn_bind (read_maintains addr) fun a => ?_
    exact failsIn_bind (load_maintains a size) fun _ => writeNone_failsIn _ _
  | store size addr value =>
    intro f hf e f' h
    rw [← observeOp_nothing, observeOp_store] at h
    cases hwrite : Memory.write (f.read addr) size (f.read value) f.machine.mem with
    | ok u mem =>
      rw [hwrite] at h
      cases h
    | error e mem =>
      obtain rfl := Memory.write_error hwrite
      rw [hwrite] at h
      cases h
      exact hf
  | call dst slot =>
    simp only [runOp]
    exact failsIn_bind (onMachine_maintains (hrequest _)) fun _ => writeNone_failsIn _ _
  | jump dst target =>
    simp only [runOp]
    exact failsIn_bind (read_maintains target) fun _ =>
      failsIn_bind (onMachine_maintains (hrequest _)) fun _ => writeNone_failsIn _ _
  | branch cond ifTrue ifFalse => exact absurd rfl (hop cond ifTrue ifFalse)
  | ret value =>
    intro f _ e f' h
    simp only [runOp] at h
    cases h

variable (hnoting : ∀ cpu mem h, N ⟨cpu, mem, noting cpu mem h⟩)
include hnoting

/-- What noting establishes holds after an operation, whether it fails or not. -/
lemma noted_maintains {x : Run Error (Frame H) α} (hx : FailsIn N x) :
    Maintains (OfMachine N) (do let r ← x; noteEffects noting; return r) := by
  intro f hf
  cases h : x f with
  | ok r f' =>
    rw [EStateM.bind_ok h]
    exact hnoting _ _ _
  | error e f' =>
    rw [EStateM.bind_error h]
    exact hx f hf e f' h

end

section
variable {N : Machine H → Prop} {types : Array Ty} {s : Services H}
  {noting : Cpu.State → Memory → H → H}

mutual

lemma traceOp_maintains (hnoting : ∀ cpu mem h, N ⟨cpu, mem, noting cpu mem h⟩)
    (hrequest : ∀ r, Maintains N (s.request r)) :
    (op : Op) → Maintains (OfMachine N) (traceOp noting s types op)
  | .branch cond ifTrue ifFalse => by
    simp only [traceOp]
    apply (read_maintains cond).bind
    intro c
    split
    · exact traceOps_maintains hnoting hrequest ifTrue
    · exact traceOps_maintains hnoting hrequest ifFalse
  | .mov .. | .bin .. | .cmp .. | .select .. | .extend .. | .load .. | .store .. | .call ..
  | .jump .. | .ret _ => by
    simp only [traceOp]
    exact noted_maintains hnoting (runOp_failsIn hrequest (by simp))

lemma traceOps_maintains (hnoting : ∀ cpu mem h, N ⟨cpu, mem, noting cpu mem h⟩)
    (hrequest : ∀ r, Maintains N (s.request r)) :
    (ops : List Op) → Maintains (OfMachine N) (traceOps noting s types ops)
  | [] => by
    simp only [traceOps]
    exact EStateM.keeps_pure _
  | op :: rest => by
    simp only [traceOps]
    apply (traceOp_maintains hnoting hrequest op).bind
    intro r
    cases r with
    | some value => exact EStateM.keeps_pure _
    | none => exact traceOps_maintains hnoting hrequest rest

end

/-- What noting establishes holds wherever a traced function stops, if it held at the start. -/
theorem trace_maintains (hnoting : ∀ cpu mem h, N ⟨cpu, mem, noting cpu mem h⟩)
    (hrequest : ∀ r, Maintains N (s.request r)) (htick : Maintains N s.tick) (fuel : Nat)
    (f : Ir.Function) : Maintains N (trace noting s fuel f) := by
  intro m hm
  have hw : Maintains (OfMachine N) (f.body.walk (tracer noting s f.locals) fuel) :=
    Shape.maintains_walk (fun b => traceOps_maintains hnoting hrequest b)
      (fun c => (read_maintains c).bind fun _ => EStateM.keeps_pure _)
      (onMachine_maintains htick) fuel f.body
  have hafter := hw ⟨m, Array.replicate f.locals.size 0⟩ hm
  unfold trace finish
  generalize f.body.walk (tracer noting s f.locals) fuel ⟨m, Array.replicate f.locals.size 0⟩ = r
    at hafter ⊢
  rcases r with ⟨_ | _, frame⟩ | ⟨e, frame⟩ <;> exact hafter

end

end Dynarec.Interp
