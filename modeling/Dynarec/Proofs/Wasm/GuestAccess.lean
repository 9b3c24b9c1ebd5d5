import Dynarec.Proofs.Memory
import Dynarec.Proofs.Wasm.Reached
import Dynarec.Proofs.Wasm.References
import Dynarec.Proofs.Wasm.Valid

/-!
# Guest accesses of modules

Guest memory lies at address zero of linear memory. Where its size is given, the code of a guest load or store
traps when the access leaves guest memory, and otherwise it touches the bytes of linear memory at the guest
address. This asks for a guest memory that fits into linear memory: the address is cut to 32 bits after the
check, so that beyond this size guest addresses alias.
-/

namespace Dynarec.Wasm

open Ir (Op Place Operand)
open Instruction (execAll)

variable {ε H : Type} {env : Environment ε H} {is js : List Instruction} {s s₁ : List Value}
  {a a₁ a₂ : Activation H}

/-! ### Traps -/

/-- Some instructions stop by a trap. -/
def Traps (env : Environment ε H) (is : List Instruction) (s : List Value) (a a' : Activation H) : Prop :=
  ∀ fuel, execAll env fuel is s a = .error (.error .trap) a'

namespace Traps

lemma of_exec {i : Instruction}
    (h : ∀ fuel, Instruction.exec env fuel i s a = .error (.error .trap) a₁) : Traps env [i] s a a₁ := by
  intro fuel
  rw [execAll, EStateM.bind_error (h fuel)]

/-- Nothing is run after a trap. -/
lemma append (h : Traps env is s a a₁) (js : List Instruction) : Traps env (is ++ js) s a a₁ := by
  intro fuel
  have hrun := h fuel
  clear h
  induction is generalizing s a with
  | nil => cases hrun
  | cons i is ih =>
    rw [execAll] at hrun
    rw [List.cons_append, execAll]
    cases hi : Instruction.exec env fuel i s a with
    | error e a₂ =>
      rw [EStateM.bind_error hi] at hrun ⊢
      exact hrun
    | ok left a₂ =>
      rw [EStateM.bind_ok hi] at hrun ⊢
      cases left with
      | next s₂ => exact ih hrun
      | br depth s₂ => cases hrun
      | ret s₂ => cases hrun

lemma unreachable : Traps env [.unreachable] s a a := of_exec fun _ => rfl

lemma ifThen {c : UInt32} (hc : c ≠ 0) (h : Traps env is [] a a₁) :
    Traps env [.ifThen is] (.i32 c :: s) a a₁ := by
  apply of_exec
  intro fuel
  rw [Instruction.exec, if_pos hc, EStateM.bind_error (h fuel)]

/-- An access beyond the end of memory. -/
lemma load {size : AccessSize} {addr : UInt32} (h : a.shared.memory.size < addr.toNat + size.bytes) :
    Traps env [.load size 0] (.i32 addr :: s) a a := by
  apply of_exec
  intro fuel
  have hload : loadAt (ε := ε) (addr.toNat + 0) size a = .error (.error .trap) a :=
    if_neg (Nat.not_le.2 h)
  exact EStateM.bind_error (EStateM.bind_error hload)

lemma store {size : AccessSize} {addr : UInt32} {value : UInt64}
    (h : a.shared.memory.size < addr.toNat + size.bytes) :
    Traps env [.store size 0] (.i64 value :: .i32 addr :: s) a a := by
  apply of_exec
  intro fuel
  have hstore : storeAt (ε := ε) (addr.toNat + 0) size value a = .error (.error .trap) a :=
    if_neg (Nat.not_le.2 h)
  exact EStateM.bind_error (EStateM.bind_error hstore)

end Traps

lemma Steps.traps (h : Steps env is s a s₁ a₁) (h' : Traps env js s₁ a₁ a₂) : Traps env (is ++ js) s a a₂ := by
  intro fuel
  rw [h.execAll_append]
  exact h' fuel

/-- A conditional without a second arm that is not taken. -/
lemma Steps.ifThen_not : Steps env [.ifThen is] (.i32 0 :: s) a s a := of_exec fun _ => rfl

/-! ### The code of accesses -/

/-- A guest access: a load into a place, or a store of an operand. -/
inductive Access where
  | load (size : AccessSize) (dst : Place) (addr : Operand)
  | store (size : AccessSize) (addr value : Operand)

namespace Access

variable (c : Context)

/-- The operation that makes an access. -/
def op : Access → Op
  | .load size dst addr => .load size dst addr
  | .store size addr value => .store size addr value

def size : Access → AccessSize
  | .load size _ _ | .store size _ _ => size

def addr : Access → Operand
  | .load _ _ addr | .store _ addr _ => addr

/-- The code of an access, up to the instruction that touches memory. -/
def code : Access → List Instruction
  | .load size _ addr => Codegen.guestAddress c addr size ++ [.load size 0]
  | .store size addr value => Codegen.guestAddress c addr size ++ Codegen.readOperand value ++ [.store size 0]

/-- An access that a function makes. -/
def Of (x : Access) (f : Ir.Function) : Prop :=
  ∃ os, (Shape.body os).Within f.body ∧ x.op.Within os

end Access

/-- An activation that keeps a guest address for its check. -/
def Activation.keep (c : Context) (addr : UInt64) (a : Activation H) : Activation H :=
  { a with locals := a.locals.setIfInBounds c.lhsLocal (.i64 addr) }

section
variable {c : Context} {r : Nat} {addr : UInt64} {x : Operand} {size : AccessSize}

/-- The local for an address is there. -/
lemma lhsLocal_lt (hsize : a.locals.size = c.longLocals + 2) : c.lhsLocal < a.locals.size := by
  rw [hsize, Context.lhsLocal, Context.spareLocal, Context.longLocals]
  omega

lemma keep_get (hsize : a.locals.size = c.longLocals + 2) :
    (a.keep c addr).locals[c.lhsLocal]? = some (.i64 addr) := by
  rw [Activation.keep, Array.getElem?_setIfInBounds_self_of_lt (lhsLocal_lt hsize)]

/-- The check of the address that is kept. -/
def checkCode (c : Context) (r : Nat) (size : AccessSize) : List Instruction :=
  if size.bytes ≤ r then
    [.localGet c.lhsLocal, .i64Const (UInt64.ofNat (r - size.bytes)), .rel .w64 .gtU,
      .ifThen [.unreachable]]
  else [.unreachable]

lemma guestAddress_eq (hram : c.ramBytes = some r) : Codegen.guestAddress c x size =
    (Codegen.readOperand x ++ [.localSet c.lhsLocal]) ++
      (checkCode c r size ++ [.localGet c.lhsLocal, .wrap]) := by
  simp [Codegen.guestAddress, checkCode, hram]

/-- The address is compared with the last one at which an access fits. -/
lemma check_holds (hle : size.bytes ≤ r) (hr : r < 2 ^ 64) :
    RelOp.holds .gtU addr.toBitVec (UInt64.ofNat (r - size.bytes)).toBitVec =
      decide (r < addr.toNat + size.bytes) := by
  have hlast : (UInt64.ofNat (r - size.bytes)).toNat = r - size.bytes :=
    UInt64.toNat_ofNat_of_lt' (Nat.lt_of_le_of_lt (Nat.sub_le _ _) hr)
  rw [RelOp.holds, BitVec.ult, UInt64.toNat_toBitVec, UInt64.toNat_toBitVec, hlast]
  apply decide_eq_decide.2
  omega

/-- The comparison of a check is left on the stack. -/
lemma check_steps (env : Environment ε H) (s : List Value) (addr : UInt64) (hle : size.bytes ≤ r)
    (hr : r < 2 ^ 64) (hsize : a.locals.size = c.longLocals + 2) :
    Steps env [.localGet c.lhsLocal, .i64Const (UInt64.ofNat (r - size.bytes)), .rel .w64 .gtU] s
      (a.keep c addr) (truth (r < addr.toNat + size.bytes) :: s) (a.keep c addr) := by
  rw [← check_holds hle hr]
  exact (Steps.localGet (keep_get hsize)).cons (Steps.i64Const.cons Steps.rel64)

/-- The address is kept. -/
lemma keep_steps (hsize : a.locals.size = c.longLocals + 2)
    (hx : Steps env (Codegen.readOperand x) s a (.i64 addr :: s) a) :
    Steps env (Codegen.readOperand x ++ [.localSet c.lhsLocal]) s a s (a.keep c addr) :=
  hx.append (Steps.localSet (lhsLocal_lt hsize))

/-- An access that leaves guest memory traps. -/
lemma guestAddress_traps (hram : c.ramBytes = some r) (hr : r < 2 ^ 64)
    (hsize : a.locals.size = c.longLocals + 2)
    (hx : Steps env (Codegen.readOperand x) s a (.i64 addr :: s) a)
    (hout : r < addr.toNat + size.bytes) :
    Traps env (Codegen.guestAddress c x size) s a (a.keep c addr) := by
  rw [guestAddress_eq hram]
  refine (keep_steps hsize hx).traps (Traps.append ?_ _)
  unfold checkCode
  split
  · next hle =>
    have hcheck := check_steps env s addr hle hr hsize
    rw [decide_eq_true hout] at hcheck
    exact hcheck.traps (.ifThen (by decide) .unreachable)
  · exact .unreachable

/-- An access within guest memory goes on at the address, cut to 32 bits. -/
lemma guestAddress_steps (hram : c.ramBytes = some r) (hr : r < 2 ^ 64)
    (hsize : a.locals.size = c.longLocals + 2)
    (hx : Steps env (Codegen.readOperand x) s a (.i64 addr :: s) a)
    (hin : addr.toNat + size.bytes ≤ r) :
    Steps env (Codegen.guestAddress c x size) s a (.i32 addr.toUInt32 :: s) (a.keep c addr) := by
  have hle : size.bytes ≤ r := by omega
  have hcheck := check_steps env s addr hle hr hsize
  rw [decide_eq_false (Nat.not_lt.2 hin)] at hcheck
  rw [guestAddress_eq hram, checkCode, if_pos hle]
  exact (keep_steps hsize hx).append <| (hcheck.append .ifThen_not).append <|
    (Steps.localGet (keep_get hsize)).cons .wrap

/-! ### Accesses -/

/-- From a stack and an activation, a guest access traps when it leaves a guest memory of `r` bytes, or linear
memory. Otherwise it touches exactly the bytes of linear memory at the guest address: a load takes its value
from them, and a store changes none but these. -/
def Access.Confined (x : Access) (c : Context) (r : Nat) (env : Environment ε H) (s : List Value)
    (a : Activation H) : Prop :=
  ∀ addr : UInt64, Steps env (Codegen.readOperand x.addr) s a (.i64 addr :: s) a →
    let memory := a.shared.memory
    let kept := a.keep c addr
    (r < addr.toNat + x.size.bytes → Traps env (x.code c) s a kept) ∧
    (addr.toNat + x.size.bytes ≤ r → match x with
      | .load size _ _ =>
        (memory.size < addr.toNat + size.bytes → Traps env (x.code c) s a kept) ∧
        (addr.toNat + size.bytes ≤ memory.size →
          Steps env (x.code c) s a (.i64 (Bytes.readWord memory addr.toNat size.bytes) :: s) kept ∧
          ∀ memory' : ByteArray, (∀ j, addr.toNat ≤ j → j < addr.toNat + size.bytes →
              Bytes.get memory' j = Bytes.get memory j) →
            Bytes.readWord memory' addr.toNat size.bytes = Bytes.readWord memory addr.toNat size.bytes)
      | .store size _ value => ∀ v,
        Steps env (Codegen.readOperand value) (.i32 addr.toUInt32 :: s) kept
          (.i64 v :: .i32 addr.toUInt32 :: s) kept →
        (memory.size < addr.toNat + size.bytes → Traps env (x.code c) s a kept) ∧
        (addr.toNat + size.bytes ≤ memory.size → ∃ memory' : ByteArray,
          memory' = Bytes.writeWord memory addr.toNat size.bytes v ∧
          Steps env (x.code c) s a s { kept with shared.memory := memory' } ∧
          ∀ j, j < addr.toNat ∨ addr.toNat + size.bytes ≤ j →
            Bytes.get memory' j = Bytes.get memory j))

/-- Guest memory that fits into linear memory has addresses of 32 bits. -/
lemma toNat_toUInt32_of_le (h : addr.toNat + size.bytes ≤ r) (hr : r ≤ 2 ^ 32) :
    addr.toUInt32.toNat = addr.toNat := by
  have hpos : 0 < size.bytes := by cases size <;> decide
  rw [UInt64.toNat_toUInt32]
  exact Nat.mod_eq_of_lt (by omega)

lemma Access.confined (hram : c.ramBytes = some r) (hr : r ≤ 2 ^ 32)
    (hsize : a.locals.size = c.longLocals + 2) (x : Access) : x.Confined c r env s a := by
  intro addr hx memory kept
  have hr64 : r < 2 ^ 64 := by omega
  cases x with
  | load size dst x =>
    refine ⟨fun hout => (guestAddress_traps hram hr64 hsize hx hout).append _, fun hin => ?_⟩
    have haddr := guestAddress_steps hram hr64 hsize hx hin
    have hcut := toNat_toUInt32_of_le hin hr
    refine ⟨fun hend => haddr.traps (.load ?_), fun hfits => ⟨?_, fun memory' => Bytes.readWord_congr⟩⟩
    · rwa [hcut]
    · have hload : Steps env [.load size 0] (.i32 addr.toUInt32 :: s) kept _ kept :=
        Steps.load (by rwa [hcut, Nat.add_zero])
      rw [hcut, Nat.add_zero] at hload
      exact haddr.append hload
  | store size x value =>
    refine ⟨fun hout => ((guestAddress_traps hram hr64 hsize hx hout).append _).append _,
      fun hin v hv => ?_⟩
    have hvalue := (guestAddress_steps hram hr64 hsize hx hin).append hv
    have hcut := toNat_toUInt32_of_le hin hr
    refine ⟨fun hend => hvalue.traps (.store ?_), fun hfits => ⟨_, rfl, ?_, fun j hj => ?_⟩⟩
    · rwa [hcut]
    · have hstore : Steps env [.store size 0] (.i64 v :: .i32 addr.toUInt32 :: s) kept s _ :=
        Steps.store (by rwa [hcut, Nat.add_zero])
      rw [hcut, Nat.add_zero] at hstore
      exact hvalue.append hstore
    · exact Bytes.get_writeWord_of_outside hj memory v

end

/-! ### Where accesses are -/

/-- The instructions inside an instruction. -/
def Instruction.bodies : Instruction → List (List Instruction)
  | .block inner | .loop inner | .ifThen inner => [inner]
  | .ifElse _ ifTrue ifFalse => [ifTrue, ifFalse]
  | _ => []

/-- Some instructions follow each other in others or inside one of them. -/
inductive Occurs (code : List Instruction) : List Instruction → Prop where
  | here (before after : List Instruction) : Occurs code (before ++ (code ++ after))
  | inside (before : List Instruction) {i : Instruction} {inner : List Instruction}
      (after : List Instruction) : inner ∈ i.bodies → Occurs code inner →
      Occurs code (before ++ i :: after)

namespace Occurs

variable {code : List Instruction}

lemma append_left (js : List Instruction) (h : Occurs code is) : Occurs code (js ++ is) := by
  cases h with
  | here before after =>
    rw [← List.append_assoc]
    exact .here _ after
  | inside before after hi hinner =>
    rw [← List.append_assoc]
    exact .inside _ after hi hinner

lemma append_right (js : List Instruction) (h : Occurs code is) : Occurs code (is ++ js) := by
  cases h with
  | here before after =>
    rw [List.append_assoc, List.append_assoc]
    exact .here before _
  | inside before after hi hinner =>
    rw [List.append_assoc, List.cons_append]
    exact .inside before _ hi hinner

/-- The last instruction has the code inside. -/
lemma last (before : List Instruction) {i : Instruction} (hi : is ∈ i.bodies) (h : Occurs code is) :
    Occurs code (before ++ [i]) := .inside before [] hi h

end Occurs

section
variable {c : Context} {x : Access} {code : List Instruction}

lemma exists_op (c : Context) (x : Access) : ∃ rest, Codegen.op c x.op = .ok (x.code c ++ rest) := by
  cases x with
  | load size dst addr => exact ⟨Codegen.writePlace c dst, by simp [Access.op, Access.code, Codegen.op]⟩
  | store size addr value => exact ⟨[], by simp [Access.op, Access.code, Codegen.op]⟩

/-- An access is in the code of the operations that it is one of. -/
lemma ops_occurs {os : List Op} (h : x.op.Within os) (hcode : Codegen.ops c os = .ok code) :
    Occurs (x.code c) code := by
  induction h generalizing code with
  | head =>
    obtain ⟨after, hop⟩ := exists_op c x
    obtain ⟨_, rest, hfirst, -, rfl⟩ := Codegen.ops_cons_eq_ok hcode
    obtain rfl := Except.ok.inj (hop.symm.trans hfirst)
    rw [List.append_assoc]
    exact .here [] _
  | tail _ ih =>
    obtain ⟨first, rest, -, hrest, rfl⟩ := Codegen.ops_cons_eq_ok hcode
    exact (ih hrest).append_left first
  | @ifTrue cond yes no rest _ ih =>
    obtain ⟨first, _, hfirst, -, rfl⟩ := Codegen.ops_cons_eq_ok hcode
    apply Occurs.append_right
    obtain ⟨inner, hinner, ⟨-, rfl⟩ | ⟨_, -, rfl⟩⟩ := Codegen.branch_eq_ok hfirst
    · exact .last _ (List.mem_singleton_self _) (ih hinner)
    · exact .last _ (List.mem_cons_self ..) (ih hinner)
  | @ifFalse cond yes no rest hno ih =>
    obtain ⟨first, _, hfirst, -, rfl⟩ := Codegen.ops_cons_eq_ok hcode
    apply Occurs.append_right
    obtain ⟨_, -, ⟨rfl, -⟩ | ⟨inner, hinner, rfl⟩⟩ := Codegen.branch_eq_ok hfirst
    · cases hno
    · exact .last _ (List.mem_cons_of_mem _ (List.mem_singleton_self _)) (ih hinner)

/-- The code of shapes in order has the code of each of them. -/
lemma shapes_append {frames : List Enclosing} {y : Shape (List Op) Operand}
    {items : List (Shape (List Op) Operand)} (hy : y ∈ items)
    (hcode : Codegen.shapes c frames items = .ok code) :
    ∃ before inner after, Codegen.shape c frames y = .ok inner ∧ code = before ++ (inner ++ after) := by
  induction items generalizing code with
  | nil => cases hy
  | cons z items ih =>
    obtain ⟨first, rest, hfirst, hrest, rfl⟩ := Codegen.shapes_cons_eq_ok hcode
    rcases List.mem_cons.1 hy with rfl | hy
    · exact ⟨[], first, rest, hfirst, rfl⟩
    · obtain ⟨before, inner, after, hinner, rfl⟩ := ih hy hrest
      exact ⟨first ++ before, inner, after, hinner, (List.append_assoc ..).symm⟩

/-- An access is in the code of the shape that makes it. -/
lemma shape_occurs {os : List Op} {y : Shape (List Op) Operand} {frames : List Enclosing}
    (hy : (Shape.body os).Within y) (hx : x.op.Within os)
    (hcode : Codegen.shape c frames y = .ok code) : Occurs (x.code c) code := by
  induction hy generalizing frames code with
  | self => exact ops_occurs hx hcode
  | seq hmem _ ih =>
    obtain ⟨before, inner, after, hinner, rfl⟩ := shapes_append hmem hcode
    exact ((ih hinner).append_right after).append_left before
  | block _ ih =>
    obtain ⟨inner, hinner, rfl⟩ := Codegen.block_eq_ok hcode
    exact .last [] (List.mem_singleton_self _) (ih hinner)
  | loop _ ih =>
    obtain ⟨inner, hinner, rfl⟩ := Codegen.loop_eq_ok hcode
    exact .last [] (List.mem_singleton_self _) (ih hinner)
  | ifTrue _ ih =>
    obtain ⟨inner, hinner, ⟨-, rfl⟩ | ⟨_, -, rfl⟩⟩ := Codegen.cond_eq_ok hcode
    · exact .last _ (List.mem_singleton_self _) (ih hinner)
    · exact .last _ (List.mem_cons_self ..) (ih hinner)
  | @ifFalse t yes no hno ih =>
    obtain ⟨_, -, ⟨rfl, -⟩ | ⟨inner, hinner, rfl⟩⟩ := Codegen.cond_eq_ok hcode
    · -- an arm that is left out is empty
      cases hno with | seq hmem _ => cases hmem
    · exact .last _ (List.mem_cons_of_mem _ (List.mem_singleton_self _)) (ih hinner)

end

/-- What the code of a function is made for. -/
def contextOf (f : Ir.Function) (o : Options) : Context := ⟨f.locals, importsOf f, o.ramBytes⟩

/-- Where the size of a guest memory that fits into linear memory is given, the code of every guest access of a
function is in its module, and it is confined to guest memory whenever a run of the module comes to it. -/
theorem guest_accesses_confined (f : Ir.Function) (o : Options) {bytes : ByteArray} {r : Nat}
    (h : emitFunction f o = .ok bytes) (hram : o.ramBytes = some r) (hr : r ≤ 2 ^ 32) :
    ∃ m, moduleOf f o = .ok m ∧ m.encode = bytes ∧
      ∀ x : Access, x.Of f → Occurs (x.code (contextOf f o)) m.body ∧
        ∀ {ε H : Type} (imported : Imported ε H) (fuel : Nat) (image : UInt32) (shared : Instance H)
          (s : List Value) (a : Activation H),
          Reaches ⟨m.imports, imported⟩ fuel (x.code (contextOf f o)) m.body [] (m.start image shared) s a →
          x.Confined (contextOf f o) r ⟨m.imports, imported⟩ s a := by
  obtain ⟨m, hm, hbytes⟩ := emitFunction_eq_ok.1 h
  obtain ⟨-, code, hcode, rfl⟩ := moduleOf_eq_ok hm
  refine ⟨_, hm, hbytes, ?_⟩
  rintro x ⟨os, hos, hx⟩
  refine ⟨(shape_occurs hos hx hcode).append_right _, fun imported fuel image shared s a hreaches => ?_⟩
  exact x.confined hram hr (hreaches.sameLocals.trans (Module.size_start _ image shared))

/-- A load from the first address that has more than 32 bits. -/
def beyond : Access := .load .byte (.scratch ⟨0⟩) (.imm 0x100000000)

/-- A function that makes this load. -/
def loading : Ir.Function := ⟨0, #[.i64], .body [beyond.op, .ret (.imm 0)]⟩

/-- Options with so many bytes of guest memory. -/
def sized (r : Nat) : Options := { Options.default with ramBytes := some r }

lemma beyond_of_loading : beyond.Of loading := ⟨_, .self, .head⟩

/-- The module of the function starts with the load. -/
lemma exists_moduleOf_loading (r : Nat) : ∃ m after, moduleOf loading (sized r) = .ok m ∧
    m.body = beyond.code (contextOf loading (sized r)) ++ after := by
  obtain ⟨m, hm⟩ := exists_moduleOf (f := loading) (o := sized r) |>.2
    ⟨⟨show 1 ≤ 65536 by decide, nofun⟩, trivial⟩
  obtain ⟨-, code, hcode, rfl⟩ := moduleOf_eq_ok hm
  obtain ⟨after, hop⟩ := exists_op (contextOf loading (sized r)) beyond
  change Codegen.ops (contextOf loading (sized r)) [beyond.op, .ret (.imm 0)] = .ok code at hcode
  obtain ⟨_, rest, hfirst, -, rfl⟩ := Codegen.ops_cons_eq_ok hcode
  obtain rfl := Except.ok.inj (hop.symm.trans hfirst)
  exact ⟨_, after ++ rest ++ [.unreachable], hm, by simp only [List.append_assoc]⟩

/-- The load in a module for guest memory of one page. -/
theorem guest_accesses_confined_page : ∃ bytes, emitFunction loading (sized 65536) = .ok bytes ∧
    ∃ m, moduleOf loading (sized 65536) = .ok m ∧ m.encode = bytes ∧
      ∀ (imported : Imported Empty Unit) (image : UInt32) (shared : Instance Unit),
        beyond.Confined (contextOf loading (sized 65536)) 65536 ⟨m.imports, imported⟩ []
          (m.start image shared) := by
  obtain ⟨m, after, hm, hbody⟩ := exists_moduleOf_loading 65536
  have hbytes := emitFunction_eq_ok.2 ⟨m, hm, rfl⟩
  obtain ⟨m', hm', hencode, haccess⟩ :=
    guest_accesses_confined loading (sized 65536) hbytes rfl (by decide)
  obtain rfl := Except.ok.inj (hm.symm.trans hm')
  refine ⟨_, hbytes, m, hm, rfl, fun imported image shared => ?_⟩
  refine (haccess beyond beyond_of_loading).2 imported 0 image shared _ _ ?_
  rw [hbody]
  exact .here after _ _

/-- With a guest memory beyond 32 bits the load does not stay at its address: it takes the byte at address
zero where linear memory ends after it. -/
theorem guest_accesses_alias : ∃ bytes, emitFunction loading (sized (2 ^ 33)) = .ok bytes ∧
    ∃ m, moduleOf loading (sized (2 ^ 33)) = .ok m ∧ m.encode = bytes ∧ beyond.Of loading ∧
      ∃ (imported : Imported Empty Unit) (image : UInt32) (shared : Instance Unit) (s : List Value)
        (a : Activation Unit),
        Reaches ⟨m.imports, imported⟩ 0 (beyond.code (contextOf loading (sized (2 ^ 33)))) m.body []
          (m.start image shared) s a ∧
        ¬ beyond.Confined (contextOf loading (sized (2 ^ 33))) (2 ^ 33) ⟨m.imports, imported⟩ s a := by
  obtain ⟨m, after, hm, hbody⟩ := exists_moduleOf_loading (2 ^ 33)
  obtain ⟨-, code, -, hcode⟩ := moduleOf_eq_ok hm
  let imported : Imported Empty Unit := ⟨fun _ _ => pure 0, fun _ _ => pure 0, fun _ => pure ()⟩
  let shared : Instance Unit := ⟨⟨#[1]⟩, ()⟩
  refine ⟨_, emitFunction_eq_ok.2 ⟨m, hm, rfl⟩, m, hm, rfl, beyond_of_loading, imported, 0, shared, [],
    m.start 0 shared, ?_, fun hconfined => ?_⟩
  · rw [hbody]
    exact .here after _ _
  · have hsize : (m.start 0 shared).locals.size = (contextOf loading (sized (2 ^ 33))).longLocals + 2 := by
      rw [Module.size_start, hcode]
      rfl
    have hx : Steps ⟨m.imports, imported⟩ (Codegen.readOperand (.imm 0x100000000)) [] (m.start 0 shared)
      [.i64 0x100000000] (m.start 0 shared) := .i64Const
    have htraps := ((hconfined 0x100000000 hx).2 (by decide)).1 (show 1 < 0x100000001 by decide)
    have haddr : Steps _ (Codegen.guestAddress _ _ .byte) _ _ _ _ :=
      guestAddress_steps rfl (by decide) hsize hx (by decide)
    have hload : Steps _ (Codegen.guestAddress _ _ .byte ++ [.load .byte 0]) _ _ _ _ :=
      haddr.append (.load (show 0 + 0 + 1 ≤ 1 by decide))
    cases (htraps 0).symm.trans (hload 0)

end Dynarec.Wasm
