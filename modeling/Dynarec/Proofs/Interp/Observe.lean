import Dynarec.Proofs.Interp.Bounds
import Dynarec.Proofs.Ir.Relocate
import Dynarec.Proofs.Memory
import Dynarec.Proofs.Shape.Lockstep

/-!
# Running functions under observation

A run whose host notes what memory becomes with every store; a host that notes nothing sees the run
as it is. Two runs of one function, linked to two slot tables, go in lockstep when their hosts serve
the calls and jumps of the function in lockstep.
-/

namespace Dynarec.Interp

open Ir (Op Operand Ty)
open Run (Lockstep)

variable {H H' α : Type}

/-- Let the host note what memory is. -/
def note (noting : Memory → H → H) : Run Error (Frame H) Unit :=
  fun ⟨⟨cpu, mem, host⟩, locals⟩ => .ok () ⟨⟨cpu, mem, noting mem host⟩, locals⟩

mutual

/-- Run one operation, with memory noted after every store. -/
def observeOp (noting : Memory → H → H) (services : Services H) (types : Array Ty) :
    Op → Run Error (Frame H) (Option UInt64)
  | .store size addr value => do
    let r ← runOp services types (.store size addr value)
    note noting
    return r
  | .branch cond ifTrue ifFalse => do
    if (← read cond) != 0 then observeOps noting services types ifTrue
    else observeOps noting services types ifFalse
  | op => runOp services types op

/-- Run operations one after the other until one returns, with memory noted after every store. -/
def observeOps (noting : Memory → H → H) (services : Services H) (types : Array Ty) :
    List Op → Run Error (Frame H) (Option UInt64)
  | [] => return none
  | op :: rest => do
    match ← observeOp noting services types op with
    | some value => return some value
    | none => observeOps noting services types rest

end

/-- The meaning of the bodies and conditions of a function under observation. -/
def observer (noting : Memory → H → H) (services : Services H) (types : Array Ty) :
    Shape.Visitor (List Op) Operand Error (Frame H) where
  body := observeOps noting services types
  test := (visitor services types).test
  backEdge := (visitor services types).backEdge

/-- Run the body of a function on its locals; what it does not return is an error. -/
def finish (f : Ir.Function) (body : Run Error (Frame H) (Option UInt64)) :
    Run Error (Machine H) UInt64 := fun machine =>
  match body ⟨machine, Array.replicate f.locals.size 0⟩ with
  | .ok (some value) frame => .ok value frame.machine
  | .ok none frame => .error (.error (.invariant (.fellOffEnd f.entry))) frame.machine
  | .error e frame => .error e frame.machine

/-- Run a function under observation. -/
def observe (noting : Memory → H → H) (services : Services H) (fuel : Nat) (f : Ir.Function) :
    Run Error (Machine H) UInt64 :=
  finish f (f.body.walk (observer noting services f.locals) fuel)

/-! ### Noting nothing -/

mutual

lemma observeOp_nothing (services : Services H) (types : Array Ty) :
    (op : Op) → observeOp (fun _ h => h) services types op = runOp services types op
  | .store size addr value => by
    rw [observeOp]
    funext f
    cases h : runOp services types (.store size addr value) f with
    | ok r f' =>
      rw [EStateM.bind_ok h]
      rfl
    | error e f' => rw [EStateM.bind_error h]
  | .branch cond ifTrue ifFalse => by
    rw [observeOp, runOp, observeOps_nothing services types ifTrue,
      observeOps_nothing services types ifFalse]
  | .mov .. | .bin .. | .cmp .. | .select .. | .extend .. | .load .. | .call .. | .jump ..
  | .ret _ => by rw [observeOp] <;> simp

lemma observeOps_nothing (services : Services H) (types : Array Ty) :
    (ops : List Op) → observeOps (fun _ h => h) services types ops = runOps services types ops
  | [] => by rw [observeOps, runOps]
  | op :: rest => by
    rw [observeOps, runOps]
    refine congrArg₂ Bind.bind (observeOp_nothing services types op) (funext fun r => ?_)
    cases r with
    | none => exact observeOps_nothing services types rest
    | some value => rfl

end

/-- A host that notes nothing does not change a run. -/
theorem observe_nothing (services : Services H) (fuel : Nat) (f : Ir.Function) :
    observe (fun _ h => h) services fuel f = invoke services fuel f := by
  have hobserver : observer (fun _ h => h) services f.locals = visitor services f.locals := by
    have hbody := funext (observeOps_nothing services f.locals)
    unfold observer
    rw [hbody]
    rfl
  rw [observe, hobserver]
  rfl

/-! ### Lockstep -/

/-- A relation between machines that running operations keeps: related machines have one processor
state and one memory, and noting what is stored keeps them related. The errors of running
operations, and the end of the fuel, are of the kind that may occur. -/
structure Coupling (good : H → Prop) (R : Machine H → Machine H' → Prop) (E : Halt Error → Prop)
    (noting : Memory → H → H) (noting' : Memory → H' → H') : Prop where
  cpu {m : Machine H} {m' : Machine H'} : R m m' → m'.cpu = m.cpu
  mem {m : Machine H} {m' : Machine H'} : R m m' → m'.mem = m.mem
  write {m : Machine H} {m' : Machine H'} : R m m' → ∀ cpu,
    R ⟨cpu, m.mem, m.host⟩ ⟨cpu, m'.mem, m'.host⟩
  store {m : Machine H} {m' : Machine H'} {addr : UInt64} {size : AccessSize} {value : UInt64}
    {mem : Memory} : R m m' → Memory.write addr size value m.mem = .ok () mem →
    good (noting mem m.host) →
    R ⟨m.cpu, mem, noting mem m.host⟩ ⟨m'.cpu, mem, noting' mem m'.host⟩
  back {mem : Memory} {h : H} : good (noting mem h) → good h
  memory (e : Memory.Error) : E (.error (.memory e))
  fellOffEnd (entry : UInt64) : E (.error (.invariant (.fellOffEnd entry)))
  outOfFuel : E .outOfFuel

lemma observeOp_store (noting : Memory → H → H) (services : Services H) (types : Array Ty)
    (size : AccessSize) (addr value : Operand) (f : Frame H) :
    observeOp noting services types (.store size addr value) f =
      match Memory.write (f.read addr) size (f.read value) f.machine.mem with
      | .ok _ mem => .ok none ⟨⟨f.machine.cpu, mem, noting mem f.machine.host⟩, f.locals⟩
      | .error e mem =>
        .error (.error (.memory e)) ⟨⟨f.machine.cpu, mem, f.machine.host⟩, f.locals⟩ := by
  have hrun : runOp services types (.store size addr value) f =
      match Memory.write (f.read addr) size (f.read value) f.machine.mem with
      | .ok _ mem => .ok none ⟨⟨f.machine.cpu, mem, f.machine.host⟩, f.locals⟩
      | .error e mem =>
        .error (.error (.memory e)) ⟨⟨f.machine.cpu, mem, f.machine.host⟩, f.locals⟩ := by
    rw [runOp]
    have hread : ∀ operand, Interp.read operand f = .ok (f.read operand) f := fun _ => rfl
    rw [EStateM.bind_ok (hread addr), EStateM.bind_ok (hread value)]
    cases hwrite : Memory.write (f.read addr) size (f.read value) f.machine.mem with
    | ok u mem =>
      have hstore : store (f.read addr) size (f.read value) f =
          .ok () ⟨⟨f.machine.cpu, mem, f.machine.host⟩, f.locals⟩ := by
        simp only [store, hwrite]
      exact EStateM.bind_ok hstore
    | error e mem =>
      have hstore : store (f.read addr) size (f.read value) f =
          .error (.error (.memory e)) ⟨⟨f.machine.cpu, mem, f.machine.host⟩, f.locals⟩ := by
        simp only [store, hwrite]
      exact EStateM.bind_error hstore
  rw [observeOp]
  cases hwrite : Memory.write (f.read addr) size (f.read value) f.machine.mem with
  | ok u mem =>
    rw [hwrite] at hrun
    rw [EStateM.bind_ok hrun]
    rfl
  | error e mem =>
    rw [hwrite] at hrun
    rw [EStateM.bind_error hrun]

/-- Hosts that serve in lockstep: calls of some numbers through the slots that each of them has for
the number, and all jumps. -/
structure Services.Lockstep (good : H → Prop) (R : Machine H → Machine H' → Prop)
    (E : Halt Error → Prop) (K : Nat → Prop) (ρ ρ' : Nat → Nat) (s : Services H)
    (t : Services H') : Prop where
  call (n : Nat) : K n → Run.Lockstep (fun m => good m.host) R E (s.request (.call (ρ n)))
    (t.request (.call (ρ' n)))
  jump (target : UInt64) : Run.Lockstep (fun m => good m.host) R E (s.request (.jump target))
    (t.request (.jump target))
  tick : Run.Lockstep (fun m => good m.host) R E s.tick t.tick

/-- Frames are related when their machines are and their locals are the same. -/
def OnFrames (R : Machine H → Machine H' → Prop) (f : Frame H) (f' : Frame H') : Prop :=
  R f.machine f'.machine ∧ f'.locals = f.locals

section
variable {good : H → Prop} {R : Machine H → Machine H' → Prop} {E : Halt Error → Prop}
  {noting : Memory → H → H} {noting' : Memory → H' → H'} {types : Array Ty}

/-- Lockstep of computations on frames. -/
abbrev FrameLockstep (good : H → Prop) (R : Machine H → Machine H' → Prop) (E : Halt Error → Prop)
    (x : Run Error (Frame H) α) (y : Run Error (Frame H') α) : Prop :=
  Lockstep (fun f => good f.machine.host) (OnFrames R) E x y

lemma onMachine_lockstep {x : Run Error (Machine H) α} {y : Run Error (Machine H') α}
    (h : Lockstep (fun m => good m.host) R E x y) :
    FrameLockstep good R E (onMachine x) (onMachine y) where
  back := by
    rintro ⟨m, locals⟩ hgood
    apply h.back m
    cases hx : x m with
    | ok a m₁ => rwa [onMachine_ok hx] at hgood
    | error e m₁ => rwa [onMachine_error hx] at hgood
  step := by
    rintro ⟨m, locals⟩ ⟨m', locals'⟩ ⟨hR, rfl⟩ hgood
    cases hx : x m with
    | ok a m₁ =>
      rw [onMachine_ok hx] at hgood ⊢
      have hstep := h.step m m' hR (by rwa [hx])
      cases hy : y m' with
      | ok b m₂ =>
        rw [hx, hy] at hstep
        rw [onMachine_ok hy]
        exact ⟨hstep.1, hstep.2, rfl⟩
      | error e m₂ =>
        rw [hx, hy] at hstep
        exact hstep.elim
    | error e m₁ =>
      rw [onMachine_error hx] at hgood ⊢
      have hstep := h.step m m' hR (by rwa [hx])
      cases hy : y m' with
      | ok b m₂ =>
        rw [hx, hy] at hstep
        exact hstep.elim
      | error e' m₂ =>
        rw [hx, hy] at hstep
        rw [onMachine_error hy]
        exact ⟨hstep.1, hstep.2.1, hstep.2.2, rfl⟩

variable (hc : Coupling good R E noting noting')
include hc

lemma Coupling.read_eq {f : Frame H} {f' : Frame H'} (h : OnFrames R f f') (operand : Operand) :
    f'.read operand = f.read operand := by
  obtain ⟨m, locals⟩ := f
  obtain ⟨m', locals'⟩ := f'
  obtain ⟨hR, rfl⟩ := h
  have hcpu := hc.cpu hR
  dsimp only at hcpu
  cases operand with
  | imm value => rfl
  | place p => cases p <;> simp only [Frame.read, Frame.readPlace, hcpu]

lemma Coupling.read (operand : Operand) :
    FrameLockstep good R E (read operand) (read operand) where
  back _ h := h
  step _ _ h _ := ⟨(hc.read_eq h operand).symm, h⟩

lemma Coupling.writePlace (place : Ir.Place) (value : UInt64) :
    FrameLockstep good R E (Interp.write types place value) (Interp.write types place value) where
  back f h := by
    rw [← host_write types f place value]
    exact h
  step := by
    rintro ⟨⟨cpu, mem, host⟩, locals⟩ ⟨⟨cpu', mem', host'⟩, locals'⟩ ⟨hR, rfl⟩ _
    obtain rfl : cpu' = cpu := hc.cpu hR
    refine ⟨rfl, ?_⟩
    cases place
    case scratch l => exact ⟨hR, rfl⟩
    all_goals exact ⟨hc.write hR _, rfl⟩

lemma Coupling.load (addr : UInt64) (size : AccessSize) :
    FrameLockstep good R E (load addr size) (load addr size) where
  back f h := by
    unfold Interp.load at h
    cases hread : f.machine.mem.read addr size <;> simp only [hread] at h <;> exact h
  step f f' h _ := by
    unfold Interp.load
    rw [hc.mem h.1]
    cases hread : f.machine.mem.read addr size with
    | ok value => exact ⟨rfl, h⟩
    | error e => exact ⟨rfl, hc.memory e, h⟩

/-- A store with what is noted after it. -/
lemma Coupling.storeOp (services : Services H) (services' : Services H') (size : AccessSize)
    (addr value : Operand) :
    FrameLockstep good R E (observeOp noting services types (.store size addr value))
      (observeOp noting' services' types (.store size addr value)) where
  back := by
    rintro ⟨⟨cpu, mem, host⟩, locals⟩ h
    rw [observeOp_store] at h
    cases hwrite : Memory.write (Frame.read ⟨⟨cpu, mem, host⟩, locals⟩ addr) size
        (Frame.read ⟨⟨cpu, mem, host⟩, locals⟩ value) mem <;> simp only [hwrite] at h
    · exact hc.back h
    · exact h
  step := by
    rintro f f' h hgood
    have haddr := hc.read_eq h addr
    have hvalue := hc.read_eq h value
    obtain ⟨⟨cpu, mem, host⟩, locals⟩ := f
    obtain ⟨⟨cpu', mem', host'⟩, locals'⟩ := f'
    obtain ⟨hR, rfl⟩ := h
    obtain rfl : mem' = mem := hc.mem hR
    rw [observeOp_store] at hgood
    rw [observeOp_store, observeOp_store, haddr, hvalue]
    dsimp only at hgood ⊢
    cases hwrite : Memory.write (Frame.read ⟨⟨cpu, mem', host⟩, locals'⟩ addr) size
        (Frame.read ⟨⟨cpu, mem', host⟩, locals'⟩ value) mem' with
    | ok u mem₁ =>
      rw [hwrite] at hgood
      exact ⟨rfl, hc.store hR hwrite hgood, rfl⟩
    | error e mem₁ =>
      obtain rfl := Memory.write_error hwrite
      exact ⟨rfl, hc.memory e, hR, rfl⟩

/-- Bodies that end alike are those of functions that do. -/
lemma Coupling.matched_finish {f f' : Ir.Function} (hentry : f'.entry = f.entry)
    (hlocals : f'.locals = f.locals) {x : Run Error (Frame H) (Option UInt64)}
    {y : Run Error (Frame H') (Option UInt64)} {m : Machine H} {m' : Machine H'}
    (h : Run.Matched (OnFrames R) E (x ⟨m, Array.replicate f.locals.size 0⟩)
      (y ⟨m', Array.replicate f.locals.size 0⟩)) :
    Run.Matched R E (Interp.finish f x m) (Interp.finish f' y m') := by
  unfold Interp.finish
  rw [hlocals, hentry]
  generalize x ⟨m, Array.replicate f.locals.size 0⟩ = r at h
  generalize y ⟨m', Array.replicate f.locals.size 0⟩ = r' at h
  rcases r with ⟨a, frame⟩ | ⟨e, frame⟩ <;> rcases r' with ⟨b, frame'⟩ | ⟨e', frame'⟩
  · obtain ⟨rfl, hframe⟩ := h
    cases a with
    | none => exact ⟨rfl, hc.fellOffEnd f.entry, hframe.1⟩
    | some value => exact ⟨rfl, hframe.1⟩
  · exact h.elim
  · exact h.elim
  · exact ⟨h.1, h.2.1, h.2.2.1⟩

/-- The ends of bodies in lockstep are those of their functions. -/
lemma Coupling.finish {f f' : Ir.Function} (hentry : f'.entry = f.entry)
    (hlocals : f'.locals = f.locals) {x : Run Error (Frame H) (Option UInt64)}
    {y : Run Error (Frame H') (Option UInt64)} (h : FrameLockstep good R E x y) :
    Lockstep (fun m => good m.host) R E (Interp.finish f x) (Interp.finish f' y) := by
  have hafter : ∀ m, (EStateM.after (Interp.finish f x m)).host =
      (EStateM.after (x ⟨m, Array.replicate f.locals.size 0⟩)).machine.host := by
    intro m
    unfold Interp.finish
    rcases x ⟨m, Array.replicate f.locals.size 0⟩ with ⟨_ | _, frame⟩ | ⟨e, frame⟩ <;> rfl
  constructor
  · intro m hgood
    rw [hafter] at hgood
    exact h.back _ hgood
  · intro m m' hR hgood
    rw [hafter] at hgood
    exact hc.matched_finish hentry hlocals (h.step _ _ ⟨hR, rfl⟩ hgood)

lemma Coupling.writeNone (place : Ir.Place) (value : UInt64) :
    FrameLockstep good R E
      (do Interp.write types place value; return none : Run Error (Frame H) (Option UInt64))
      (do Interp.write types place value; return none) :=
  (hc.writePlace place value).bind fun _ => Run.lockstep_pure _

end

section
variable {good : H → Prop} {R : Machine H → Machine H' → Prop} {E : Halt Error → Prop}
  {noting : Memory → H → H} {noting' : Memory → H' → H'} {types : Array Ty} {K : Nat → Prop}
  {ρ ρ' : Nat → Nat} {s : Services H} {t : Services H'}

mutual

/-- An operation whose calls are of the given numbers, linked to either table. -/
lemma Coupling.op (hc : Coupling good R E noting noting') (hs : s.Lockstep good R E K ρ ρ' t) :
    (op : Op) → (∀ dst n, (Op.call dst n).Within [op] → K n) →
      FrameLockstep good R E (observeOp noting s types (op.relocate ρ))
        (observeOp noting' t types (op.relocate ρ'))
  | .mov width dst src, _ => by
    simp only [Op.relocate, observeOp, runOp]
    exact (hc.read src).bind fun _ => hc.writeNone _ _
  | .bin op width dst lhs rhs, _ => by
    simp only [Op.relocate, observeOp, runOp]
    exact (hc.read lhs).bind fun _ => (hc.read rhs).bind fun _ => hc.writeNone _ _
  | .cmp op width dst lhs rhs, _ => by
    simp only [Op.relocate, observeOp, runOp]
    exact (hc.read lhs).bind fun _ => (hc.read rhs).bind fun _ => hc.writeNone _ _
  | .select dst cond ifTrue ifFalse, _ => by
    simp only [Op.relocate, observeOp, runOp]
    apply (hc.read cond).bind
    intro c
    by_cases hcond : (c != 0) = true
    · simp only [hcond, if_true]
      exact (hc.read ifTrue).bind fun _ => hc.writeNone _ _
    · simp only [hcond]
      exact (hc.read ifFalse).bind fun _ => hc.writeNone _ _
  | .extend bits signed dst src, _ => by
    simp only [Op.relocate, observeOp, runOp]
    exact (hc.read src).bind fun _ => hc.writeNone _ _
  | .load size dst addr, _ => by
    simp only [Op.relocate, observeOp, runOp]
    exact (hc.read addr).bind fun _ => (hc.load _ _).bind fun _ => hc.writeNone _ _
  | .store size addr value, _ => by
    simp only [Op.relocate]
    exact hc.storeOp s t size addr value
  | .call dst n, h => by
    simp only [Op.relocate, observeOp, runOp]
    exact (onMachine_lockstep (hs.call n (h dst n .head))).bind fun _ => hc.writeNone _ _
  | .jump dst target, _ => by
    simp only [Op.relocate, observeOp, runOp]
    exact (hc.read target).bind fun _ => (onMachine_lockstep (hs.jump _)).bind fun _ =>
      hc.writeNone _ _
  | .branch cond ifTrue ifFalse, h => by
    simp only [Op.relocate, observeOp]
    apply (hc.read cond).bind
    intro c
    split
    · exact hc.ops hs ifTrue fun dst n hn => h dst n (.ifTrue hn)
    · exact hc.ops hs ifFalse fun dst n hn => h dst n (.ifFalse hn)
  | .ret value, _ => by
    simp only [Op.relocate, observeOp, runOp]
    exact (hc.read value).bind fun _ => Run.lockstep_pure _

lemma Coupling.ops (hc : Coupling good R E noting noting') (hs : s.Lockstep good R E K ρ ρ' t) :
    (ops : List Op) → (∀ dst n, (Op.call dst n).Within ops → K n) →
      FrameLockstep good R E (observeOps noting s types (Op.relocateAll ρ ops))
        (observeOps noting' t types (Op.relocateAll ρ' ops))
  | [], _ => by
    simp only [Ir.relocateAll_nil, observeOps]
    exact Run.lockstep_pure _
  | op :: rest, h => by
    simp only [Ir.relocateAll_cons, observeOps]
    have hop : ∀ dst n, (Op.call dst n).Within [op] → K n := fun dst n hn => h dst n <| by
      cases hn with
      | head => exact .head
      | tail hn => cases hn
      | ifTrue hn => exact .ifTrue hn
      | ifFalse hn => exact .ifFalse hn
    apply (hc.op hs op hop).bind
    intro r
    cases r with
    | some value => exact Run.lockstep_pure _
    | none => exact hc.ops hs rest fun dst n hn => h dst n (.tail hn)

end

/-- A function whose calls are of the given numbers runs in lockstep when it is linked to two tables
through which hosts serve those calls in lockstep. -/
theorem Coupling.observe (hc : Coupling good R E noting noting')
    (hs : s.Lockstep good R E K ρ ρ' t) (fuel : Nat) {f : Ir.Function}
    (hf : f.body.All (fun ops => ∀ dst n, (Op.call dst n).Within ops → K n) fun _ => True) :
    Lockstep (fun m => good m.host) R E (Interp.observe noting s fuel (f.relocate ρ))
      (Interp.observe noting' t fuel (f.relocate ρ')) := by
  apply hc.finish (f := f.relocate ρ) rfl rfl
  rw [Ir.Function.relocate, Ir.Function.relocate, Shape.walk_map, Shape.walk_map]
  apply Shape.walk_lockstep hc.outOfFuel
  · exact onMachine_lockstep hs.tick
  · exact hf.imp (fun ops h => hc.ops hs ops h)
      fun c _ => (hc.read c).bind fun _ => Run.lockstep_pure _

end

/-! ### Before a run -/

section
variable {good : H → Prop} {noting : Memory → H → H} {s : Services H}

/-- What is good of a host after it has noted a store, served a request or counted a jump back was good before. -/
structure Services.Backward (good : H → Prop) (noting : Memory → H → H) (s : Services H) : Prop where
  store {mem : Memory} {h : H} : good (noting mem h) → good h
  request {r : Request} {m : Machine H} : good (EStateM.after (s.request r m)).host → good m.host
  tick {m : Machine H} : good (EStateM.after (s.tick m)).host → good m.host

/-- A host is coupled with one that it is never related to. -/
lemma Services.Backward.coupling (h : s.Backward good noting) :
    Coupling good (fun _ (_ : Machine Unit) => False) (fun _ => True) noting fun _ h => h :=
  ⟨False.elim, False.elim, False.elim, fun h => h.elim, h.store, fun _ => trivial, fun _ => trivial, trivial⟩

lemma Services.Backward.lockstep (h : s.Backward good noting) :
    s.Lockstep good (fun _ (_ : Machine Unit) => False) (fun _ => True) (fun _ => True) id id
      ⟨fun _ => throw .outOfFuel, throw .outOfFuel⟩ :=
  ⟨fun _ _ => ⟨fun _ => h.request, fun _ _ h => h.elim⟩, fun _ => ⟨fun _ => h.request, fun _ _ h => h.elim⟩,
    ⟨fun _ => h.tick, fun _ _ h => h.elim⟩⟩

/-- What is good of a host after operations have run was good before. -/
theorem observeOps_back (h : s.Backward good noting) (types : Array Ty) (ops : List Op) (f : Frame H)
    (hgood : good (EStateM.after (observeOps noting s types ops f)).machine.host) : good f.machine.host := by
  have hops : FrameLockstep good (fun _ (_ : Machine Unit) => False) (fun _ => True)
      (observeOps noting s types (Op.relocateAll id ops)) _ := h.coupling.ops h.lockstep ops fun _ _ _ => trivial
  have hback := hops.back f
  rw [Ir.relocateAll_id] at hback
  exact hback hgood

/-- What is good of a host after a function has run was good before. -/
theorem observe_back (h : s.Backward good noting) (fuel : Nat) (f : Ir.Function) (m : Machine H)
    (hgood : good (EStateM.after (Interp.observe noting s fuel f m)).host) : good m.host := by
  have hf : f.body.All (fun ops => ∀ dst n, (Op.call dst n).Within ops → True) fun _ => True :=
    Shape.all_of_forall (fun _ _ _ _ => trivial) (fun _ => trivial) f.body
  have hback := (h.coupling.observe h.lockstep fuel hf).back m
  rw [Ir.Function.relocate_id] at hback
  exact hback hgood

/-! ### Operations one after the other -/

variable {types : Array Ty}

lemma inTurn_observeOps : Run.InTurn (observeOp noting s types) (observeOps noting s types) where
  nil := by rw [observeOps]
  cons op rest := by
    rw [observeOps]
    congr 1
    funext r
    cases r <;> rfl

/-- Operations are observed in two parts. -/
lemma observeOps_append (xs ys : List Op) :
    observeOps noting s types (xs ++ ys) = (do
      match ← observeOps noting s types xs with
      | some value => return some value
      | none => observeOps noting s types ys) := by
  rw [inTurn_observeOps.append]
  congr 1
  funext r
  cases r <;> rfl

/-- Operations of which one returns do not come to their end when they are observed. -/
lemma observeOps_ne_none {ops : List Op} (h : ∃ x, .ret x ∈ ops) (f f' : Frame H) :
    observeOps noting s types ops f ≠ .ok none f' := by
  obtain ⟨x, hx⟩ := h
  refine inTurn_observeOps.ne_none (fun f f' hop => ?_) hx f f'
  simp only [observeOp, runOp] at hop
  cases hop

end

end Dynarec.Interp
