import Dynarec.Error
import Dynarec.Interp.Frame
import Dynarec.Shape.Walk

/-!
# Running functions

The meaning of a compiled function on a machine: its shape is run with its operations as bodies.
What an operation cannot do alone, to run another function, it asks of the host, which also counts
the jumps back to the start of a loop.
-/

namespace Dynarec.Interp

open Ir (Op Operand Ty)

/-- What running code asks of its host: to run the function of a table slot or of an address. -/
inductive Request where
  | call (slot : Nat)
  | jump (target : UInt64)
  deriving DecidableEq, Repr

/-- How a host serves running code. -/
structure Services (H : Type) where
  request : Request → Run Error (Machine H) UInt64
  tick : Run Error (Machine H) Unit

variable {H : Type}

/-- Do something on the machine of a frame. -/
@[inline] def onMachine {α : Type} (act : Run Error (Machine H) α) : Run Error (Frame H) α :=
  fun ⟨machine, locals⟩ =>
    match act machine with
    | .ok a machine => .ok a ⟨machine, locals⟩
    | .error e machine => .error e ⟨machine, locals⟩

/-- Read memory. -/
def load (addr : UInt64) (size : AccessSize) : Run Error (Frame H) UInt64 := fun f =>
  match f.machine.mem.read addr size with
  | .ok value => .ok value f
  | .error e => .error (.error (.memory e)) f

/-- Write memory. -/
def store (addr : UInt64) (size : AccessSize) (value : UInt64) : Run Error (Frame H) Unit :=
  fun ⟨⟨cpu, mem, host⟩, locals⟩ =>
    match Memory.write addr size value mem with
    | .ok _ mem => .ok () ⟨⟨cpu, mem, host⟩, locals⟩
    | .error e mem => .error (.error (.memory e)) ⟨⟨cpu, mem, host⟩, locals⟩

/-- The value of an operand. -/
@[inline] def read (operand : Operand) : Run Error (Frame H) UInt64 := fun f =>
  .ok (f.read operand) f

/-- Write a place. -/
@[inline] def write (types : Array Ty) (place : Ir.Place) (value : UInt64) :
    Run Error (Frame H) Unit := fun f =>
  .ok () (f.write types place value)

mutual

/-- Run one operation; gives the value that the function returns, if it does. -/
def runOp (services : Services H) (types : Array Ty) : Op → Run Error (Frame H) (Option UInt64)
  | .mov width dst src => do
    write types dst ((← read src) &&& width.mask)
    return none
  | .bin op width dst lhs rhs => do
    write types dst (op.eval width (← read lhs) (← read rhs))
    return none
  | .cmp op width dst lhs rhs => do
    write types dst (op.eval width (← read lhs) (← read rhs))
    return none
  | .select dst cond ifTrue ifFalse => do
    write types dst (← if (← read cond) != 0 then read ifTrue else read ifFalse)
    return none
  | .extend bits signed dst src => do
    write types dst (Ir.extend (← read src) bits signed)
    return none
  | .load size dst addr => do
    write types dst (← load (← read addr) size)
    return none
  | .store size addr value => do
    store (← read addr) size (← read value)
    return none
  | .call dst slot => do
    write types dst (← onMachine (services.request (.call slot)))
    return none
  | .jump dst target => do
    let target ← read target
    write types dst (← onMachine (services.request (.jump target)))
    return none
  | .branch cond ifTrue ifFalse => do
    if (← read cond) != 0 then runOps services types ifTrue else runOps services types ifFalse
  | .ret value => do
    return some (← read value)

/-- Run operations one after the other until one returns. -/
def runOps (services : Services H) (types : Array Ty) :
    List Op → Run Error (Frame H) (Option UInt64)
  | [] => return none
  | op :: rest => do
    match ← runOp services types op with
    | some value => return some value
    | none => runOps services types rest

end

/-- The meaning of the bodies and conditions of a function. -/
def visitor (services : Services H) (types : Array Ty) :
    Shape.Visitor (List Op) Operand Error (Frame H) where
  body := runOps services types
  test := fun cond => return (← read cond) != 0
  backEdge := onMachine services.tick

/-- Run a function, its locals zero at the start; gives the guest address it returns to. -/
def invoke (services : Services H) (fuel : Nat) (f : Ir.Function) :
    Run Error (Machine H) UInt64 := fun machine =>
  match f.body.walk (visitor services f.locals) fuel ⟨machine, Array.replicate f.locals.size 0⟩ with
  | .ok (some value) frame => .ok value frame.machine
  | .ok none frame => .error (.error (.invariant (.fellOffEnd f.entry))) frame.machine
  | .error e frame => .error e frame.machine

end Dynarec.Interp
