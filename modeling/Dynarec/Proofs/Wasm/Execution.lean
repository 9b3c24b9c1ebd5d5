import Mathlib.Tactic.Common
import Dynarec.Proofs.Run
import Dynarec.Wasm.Module
import Dynarec.Word.Bytes

/-!
# Execution

What the instructions of modules do, after the semantics of the standard. The top of a stack comes
first in its list. A construct runs what it encloses on an empty stack; control leaves it at its end,
by a branch to one of the constructs around, counted from the innermost, or by returning. A run is
bounded like that of a shape: a loop that would start again more often than the fuel allows stops it.
Imported functions are given by what they do to the memory and to the state of the host.
-/

namespace Dynarec.Wasm

/-- A number on the stack or in a local. -/
inductive Value where
  | i32 (value : UInt32)
  | i64 (value : UInt64)
  deriving DecidableEq, Repr

/-- The value of a local before it is set. -/
def ValType.zero : ValType → Value
  | .i32 => .i32 0
  | .i64 => .i64 0

/-- Why a run stops before its end: by a trap, because an imported function has failed, or because an
instruction does not find what it needs, which no valid code does. -/
inductive Trap (ε : Type) where
  | trap
  | imported (e : ε)
  | stuck
  deriving DecidableEq, Repr

/-- The memory that code shares with its host, and what the host keeps. -/
structure Instance (H : Type) where
  memory : ByteArray
  host : H

/-- A running function: its locals, the parameters first, with what it shares. -/
structure Activation (H : Type) where
  locals : Array Value
  shared : Instance H

/-- What the imported functions do with their arguments. -/
structure Imported (ε H : Type) where
  callSlot (slot image : UInt32) : Run ε (Instance H) UInt64
  jumpToPc (image : UInt32) (target : UInt64) : Run ε (Instance H) UInt64
  tick (image : UInt32) : Run ε (Instance H) Unit

/-- The functions that a module imports, in order, and what they do. -/
structure Environment (ε H : Type) where
  imports : List Import
  imported : Imported ε H

/-- How control leaves instructions: at their end, by a branch, or by returning, with the stack that
it leaves. -/
inductive Control where
  | next (stack : List Value)
  | br (depth : Nat) (stack : List Value)
  | ret (stack : List Value)
  deriving DecidableEq, Repr

/-- How control leaves a construct that is left as its inside is, where a branch to it takes so many
values along. -/
def Control.leave (arity : Nat) (outer : List Value) : Control → Control
  | .next stack => .next (stack ++ outer)
  | .br 0 stack => .next (stack.take arity ++ outer)
  | .br (depth + 1) stack => .br depth stack
  | .ret stack => .ret stack

/-- The value of a binary operation, if there is one. Shift amounts are taken modulo the width. -/
def BinOp.eval {n : Nat} (op : BinOp) (a b : BitVec n) : Option (BitVec n) :=
  match op with
  | .add => some (a + b)
  | .sub => some (a - b)
  | .mul => some (a * b)
  | .divS => if b = 0 ∨ a = BitVec.intMin n ∧ b = BitVec.allOnes n then none else some (a.sdiv b)
  | .divU => if b = 0 then none else some (a.udiv b)
  | .and => some (a &&& b)
  | .or => some (a ||| b)
  | .xor => some (a ^^^ b)
  | .shl => some (a <<< (b.toNat % n))
  | .shrS => some (a.sshiftRight (b.toNat % n))
  | .shrU => some (a >>> (b.toNat % n))
  | .rotr => some (a.rotateRight (b.toNat % n))

/-- Whether a comparison holds. -/
def RelOp.holds {n : Nat} (op : RelOp) (a b : BitVec n) : Bool :=
  match op with
  | .eq => a == b
  | .ne => a != b
  | .ltS => a.slt b
  | .ltU => a.ult b
  | .gtS => b.slt a
  | .gtU => b.ult a
  | .leS => a.sle b
  | .leU => a.ule b
  | .geS => b.sle a
  | .geU => b.ule a

/-- A truth value on the stack. -/
def truth (b : Bool) : Value := .i32 (if b then 1 else 0)

variable {ε H α : Type}

/-- Let an imported function run on what is shared. -/
def onShared (act : Run ε (Instance H) α) : Run (Trap ε) (Activation H) α := fun ⟨locals, shared⟩ =>
  match act shared with
  | .ok a shared => .ok a ⟨locals, shared⟩
  | .error (.error e) shared => .error (.error (.imported e)) ⟨locals, shared⟩
  | .error .outOfFuel shared => .error .outOfFuel ⟨locals, shared⟩

/-- Call an imported function with its arguments on the stack, the last one on top. -/
def callImport (h : Imported ε H) : Import → List Value → Run (Trap ε) (Activation H) (List Value)
  | .callSlot, .i32 image :: .i32 slot :: s => do
    return .i64 (← onShared (h.callSlot slot image)) :: s
  | .jumpToPc, .i64 target :: .i32 image :: s => do
    return .i64 (← onShared (h.jumpToPc image target)) :: s
  | .tick, .i32 image :: s => do
    onShared (h.tick image)
    return s
  | _, _ => Run.fail .stuck

/-- The value of a local. -/
def getLocal (index : Nat) : Run (Trap ε) (Activation H) Value := fun a =>
  match a.locals[index]? with
  | some v => .ok v a
  | none => .error (.error .stuck) a

/-- Set a local. -/
def setLocal (index : Nat) (v : Value) : Run (Trap ε) (Activation H) Unit := fun a =>
  if index < a.locals.size then .ok () { a with locals := a.locals.setIfInBounds index v }
  else .error (.error .stuck) a

/-- Read memory; an access beyond its end traps. -/
def loadAt (addr : Nat) (size : AccessSize) : Run (Trap ε) (Activation H) UInt64 := fun a =>
  if addr + size.bytes ≤ a.shared.memory.size then
    .ok (Bytes.readWord a.shared.memory addr size.bytes) a
  else .error (.error .trap) a

/-- Write memory; an access beyond its end traps. -/
def storeAt (addr : Nat) (size : AccessSize) (value : UInt64) : Run (Trap ε) (Activation H) Unit :=
  fun a =>
    if addr + size.bytes ≤ a.shared.memory.size then
      .ok () { a with
        shared.memory := Bytes.writeWord a.shared.memory addr size.bytes value }
    else .error (.error .trap) a

/-- An operation that traps when it has no value. -/
def orTrap : Option α → Run (Trap ε) (Activation H) α
  | some a => return a
  | none => Run.fail .trap

namespace Instruction

variable (env : Environment ε H)

/-- What an instruction without a structure does to the stack. -/
def step : Instruction → List Value → Run (Trap ε) (Activation H) (List Value)
  | .call function, s =>
    match env.imports[function]? with
    | some i => callImport env.imported i s
    | none => Run.fail .stuck
  | .drop, _ :: s => return s
  | .select, .i32 c :: b :: a :: s => return (if c ≠ 0 then a else b) :: s
  | .localGet index, s => do return (← getLocal index) :: s
  | .localSet index, v :: s => do
    setLocal index v
    return s
  | .load size offset, .i32 addr :: s => do
    return .i64 (← loadAt (addr.toNat + offset) size) :: s
  | .store size offset, .i64 value :: .i32 addr :: s => do
    storeAt (addr.toNat + offset) size value
    return s
  | .i32Const value, s => return .i32 value :: s
  | .i64Const value, s => return .i64 value :: s
  | .eqz64, .i64 a :: s => return truth (a == 0) :: s
  | .rel .w32 op, .i32 b :: .i32 a :: s => return truth (op.holds a.toBitVec b.toBitVec) :: s
  | .rel .w64 op, .i64 b :: .i64 a :: s => return truth (op.holds a.toBitVec b.toBitVec) :: s
  | .bin .w32 op, .i32 b :: .i32 a :: s => do
    return .i32 (.ofBitVec (← orTrap (op.eval a.toBitVec b.toBitVec))) :: s
  | .bin .w64 op, .i64 b :: .i64 a :: s => do
    return .i64 (.ofBitVec (← orTrap (op.eval a.toBitVec b.toBitVec))) :: s
  | .wrap, .i64 a :: s => return .i32 a.toUInt32 :: s
  | .extendU, .i32 a :: s => return .i64 a.toUInt64 :: s
  | _, _ => Run.fail .stuck

/-- Run the inside of a loop again as long as it branches to the loop. -/
def again (inner : Run (Trap ε) (Activation H) Control) : Nat → Run (Trap ε) (Activation H) Control
  | 0 => throw .outOfFuel
  | fuel + 1 => do
    match ← inner with
    | .br 0 _ => again inner fuel
    | left => return left

mutual

/-- Run one instruction on a stack. -/
def exec (fuel : Nat) : Instruction → List Value → Run (Trap ε) (Activation H) Control
  | .unreachable, _ => Run.fail .trap
  | .block inner, s => do return (← execAll fuel inner []).leave 0 s
  | .loop inner, s => do return (← again (execAll fuel inner []) fuel).leave 0 s
  | .ifThen ifTrue, .i32 c :: s => do
    if c ≠ 0 then return (← execAll fuel ifTrue []).leave 0 s else return .next s
  | .ifElse result ifTrue ifFalse, .i32 c :: s => do
    return (← if c ≠ 0 then execAll fuel ifTrue [] else execAll fuel ifFalse []).leave
      result.toNat s
  | .br depth, s => return .br depth s
  | .ret, s => return .ret s
  | i, s => do return .next (← step env i s)

/-- Run instructions one after the other as long as each is left at its end. -/
def execAll (fuel : Nat) : List Instruction → List Value → Run (Trap ε) (Activation H) Control
  | [], s => return .next s
  | i :: rest, s => do
    match ← exec fuel i s with
    | .next s => execAll fuel rest s
    | left => return left

end

end Instruction

/-- Run the function of a module on an address of the register image. Its result is what is on the
stack when it returns, reaches its end, or branches out of all constructs. -/
def Module.run (m : Module) (imported : Imported ε H) (fuel : Nat) (image : UInt32) :
    Run (Trap ε) (Instance H) UInt64 := fun shared =>
  let zeros := m.localGroups.flatMap fun (count, t) => List.replicate count t.zero
  match Instruction.execAll ⟨m.imports, imported⟩ fuel m.body []
      ⟨(.i32 image :: zeros).toArray, shared⟩ with
  | .ok (.next (.i64 value :: _)) a | .ok (.ret (.i64 value :: _)) a
  | .ok (.br 0 (.i64 value :: _)) a => .ok value a.shared
  | .ok _ a => .error (.error .stuck) a.shared
  | .error e a => .error e a.shared

/-! ### Runs of code -/

namespace Instruction

variable (env : Environment ε H) (fuel : Nat)

/-- Code is run after other code as that leaves it. -/
lemma execAll_append (is js : List Instruction) (s : List Value) :
    execAll env fuel (is ++ js) s = (do
      match ← execAll env fuel is s with
      | .next s => execAll env fuel js s
      | left => return left) := by
  induction is generalizing s with
  | nil => rw [List.nil_append, execAll, pure_bind]
  | cons i is ih =>
    rw [List.cons_append, execAll, execAll, bind_assoc]
    congr 1
    funext left
    cases left with
    | next s => exact ih s
    | br depth s => rfl
    | ret s => rfl

lemma execAll_single (i : Instruction) (s : List Value) : execAll env fuel [i] s = exec env fuel i s := by
  rw [execAll]
  conv_rhs => rw [← bind_pure (exec env fuel i s)]
  congr 1
  funext left
  cases left with
  | next s => rfl
  | br depth s => rfl
  | ret s => rfl

lemma exec_ifThen (p : Bool) (is : List Instruction) (s : List Value) :
    exec env fuel (.ifThen is) (truth p :: s) =
      if p then (do return (← execAll env fuel is []).leave 0 s) else return .next s := by
  cases p <;> rfl

lemma exec_ifElse (p result : Bool) (is js : List Instruction) (s : List Value) :
    exec env fuel (.ifElse result is js) (truth p :: s) = (do
      return (← if p then execAll env fuel is [] else execAll env fuel js []).leave result.toNat s) := by
  cases p <;> rfl

variable {env fuel}

/-- Code is run after a call with what the imported function leaves. -/
lemma execAll_call {callee : Nat} {i : Import} (hi : env.imports[callee]? = some i) (is : List Instruction)
    (s : List Value) : execAll env fuel (.call callee :: is) s =
      callImport env.imported i s >>= execAll env fuel is := by
  simp only [execAll, exec, step, hi, bind_assoc, pure_bind]

end Instruction

/-! ### Straight code -/

/-- Some instructions change the stack and the activation and go on at their end. -/
def Steps (env : Environment ε H) (is : List Instruction) (s : List Value) (a : Activation H)
    (s' : List Value) (a' : Activation H) : Prop :=
  ∀ fuel, Instruction.execAll env fuel is s a = .ok (.next s') a'

namespace Steps

variable {env : Environment ε H} {is js : List Instruction} {i : Instruction}
  {s s₁ s₂ : List Value} {a a₁ a₂ : Activation H}

lemma nil : Steps env [] s a s a := fun _ => rfl

/-- The instructions after those that go on run from where these leave the stack. -/
lemma execAll_append (h : Steps env is s a s₁ a₁) (fuel : Nat) (rest : List Instruction) :
    Instruction.execAll env fuel (is ++ rest) s a = Instruction.execAll env fuel rest s₁ a₁ := by
  rw [Instruction.execAll_append, EStateM.bind_ok (h fuel)]

lemma append (h : Steps env is s a s₁ a₁) (h' : Steps env js s₁ a₁ s₂ a₂) :
    Steps env (is ++ js) s a s₂ a₂ := by
  intro fuel
  rw [h.execAll_append]
  exact h' fuel

lemma cons (h : Steps env [i] s a s₁ a₁) (h' : Steps env is s₁ a₁ s₂ a₂) :
    Steps env (i :: is) s a s₂ a₂ :=
  h.append h'

lemma of_exec (h : ∀ fuel, Instruction.exec env fuel i s a = .ok (.next s₁) a₁) :
    Steps env [i] s a s₁ a₁ := by
  intro fuel
  rw [Instruction.execAll, EStateM.bind_ok (h fuel)]
  rfl

/-- An instruction goes on after one part of its work when the rest does. -/
lemma of_bind {α : Type} {x : Run (Trap ε) (Activation H) α} {r : α} {f : α → List Value}
    (hi : ∀ fuel, Instruction.exec env fuel i s = ((x >>= fun r => pure (f r)) >>= fun s =>
      pure (.next s))) (hx : x a = .ok r a₁) : Steps env [i] s a (f r) a₁ := by
  apply of_exec
  intro fuel
  rw [hi]
  exact EStateM.bind_ok (EStateM.bind_ok hx)

lemma localGet {index : Nat} {v : Value} (h : a.locals[index]? = some v) :
    Steps env [.localGet index] s a (v :: s) a := by
  have hget : getLocal (ε := ε) index a = .ok v a := by
    rw [getLocal, h]
  exact of_bind (f := (· :: s)) (fun _ => rfl) hget

lemma localSet {index : Nat} {v : Value} (h : index < a.locals.size) :
    Steps env [.localSet index] (v :: s) a s
      { a with locals := a.locals.setIfInBounds index v } := by
  have hset : setLocal (ε := ε) index v a =
      .ok () { a with locals := a.locals.setIfInBounds index v } := if_pos h
  exact of_bind (f := fun _ => s) (fun _ => rfl) hset

lemma i32Const {value : UInt32} : Steps env [.i32Const value] s a (.i32 value :: s) a :=
  of_exec fun _ => rfl

lemma i64Const {value : UInt64} : Steps env [.i64Const value] s a (.i64 value :: s) a :=
  of_exec fun _ => rfl

lemma wrap {x : UInt64} : Steps env [.wrap] (.i64 x :: s) a (.i32 x.toUInt32 :: s) a :=
  of_exec fun _ => rfl

lemma extendU {x : UInt32} : Steps env [.extendU] (.i32 x :: s) a (.i64 x.toUInt64 :: s) a :=
  of_exec fun _ => rfl

lemma rel64 {op : RelOp} {x y : UInt64} :
    Steps env [.rel .w64 op] (.i64 y :: .i64 x :: s) a
      (truth (op.holds x.toBitVec y.toBitVec) :: s) a :=
  of_exec fun _ => rfl

lemma bin64 {op : BinOp} {x y : UInt64} {r : BitVec 64}
    (h : op.eval x.toBitVec y.toBitVec = some r) :
    Steps env [.bin .w64 op] (.i64 y :: .i64 x :: s) a (.i64 (.ofBitVec r) :: s) a := by
  have hop : orTrap (ε := ε) (op.eval x.toBitVec y.toBitVec) a = .ok r a := by
    rw [h]
    rfl
  exact of_bind (f := fun r => .i64 (.ofBitVec r) :: s) (fun _ => rfl) hop

lemma bin32 {op : BinOp} {x y : UInt32} {r : BitVec 32}
    (h : op.eval x.toBitVec y.toBitVec = some r) :
    Steps env [.bin .w32 op] (.i32 y :: .i32 x :: s) a (.i32 (.ofBitVec r) :: s) a := by
  have hop : orTrap (ε := ε) (op.eval x.toBitVec y.toBitVec) a = .ok r a := by
    rw [h]
    rfl
  exact of_bind (f := fun r => .i32 (.ofBitVec r) :: s) (fun _ => rfl) hop

lemma load {size : AccessSize} {offset : Nat} {addr : UInt32}
    (h : addr.toNat + offset + size.bytes ≤ a.shared.memory.size) :
    Steps env [.load size offset] (.i32 addr :: s) a
      (.i64 (Bytes.readWord a.shared.memory (addr.toNat + offset) size.bytes) :: s) a := by
  have hload : loadAt (ε := ε) (addr.toNat + offset) size a =
      .ok (Bytes.readWord a.shared.memory (addr.toNat + offset) size.bytes) a := if_pos h
  exact of_bind (f := (.i64 · :: s)) (fun _ => rfl) hload

lemma store {size : AccessSize} {offset : Nat} {addr : UInt32} {value : UInt64}
    (h : addr.toNat + offset + size.bytes ≤ a.shared.memory.size) :
    Steps env [.store size offset] (.i64 value :: .i32 addr :: s) a s
      { a with shared.memory :=
        Bytes.writeWord a.shared.memory (addr.toNat + offset) size.bytes value } := by
  have hstore : storeAt (ε := ε) (addr.toNat + offset) size value a =
      .ok () { a with shared.memory :=
        Bytes.writeWord a.shared.memory (addr.toNat + offset) size.bytes value } := if_pos h
  exact of_bind (f := fun _ => s) (fun _ => rfl) hstore

end Steps

end Dynarec.Wasm
