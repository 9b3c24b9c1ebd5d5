import Dynarec.Proofs.Wasm.Serving

/-!
# Simulation of operations

The code of an operation does to an activation what the operation does to the frame that it tracks.
-/

namespace Dynarec.Wasm

open Ir (Op Place Operand)
open Interp (Frame)

variable {ε H : Type} {env : Environment ε H} {c : Context} {r d : Nat} {image : UInt32}
  {f : Frame H} {a a' : Activation H} {s : List Value} {w : Width} {x y : Operand}

/-- An operand is pushed cut to a width. -/
lemma Tracks.readCut (h : Tracks c r image f d a) (env : Environment ε H) (s : List Value)
    (hx : x.Declared c.types.size) :
    Steps env (Codegen.readOperand x ++ Codegen.cut w) s a (.i64 (f.read x &&& w.mask) :: s) a :=
  (h.readOperand env s hx).append .cut

lemma Tracks.readNarrow (h : Tracks c r image f d a) (env : Environment ε H) (s : List Value)
    (hx : x.Declared c.types.size) :
    Steps env (Codegen.readNarrow x w) s a (.ofWidth w (w.low (f.read x)) :: s) a :=
  (h.readOperand env s hx).append .narrow

/-- Two kept operands are divided. -/
lemma divideKept_steps {u v : UInt64} {op : BinOp} {q : BitVec w.bits}
    (hu : a.locals[c.lhsLocal]? = some (.i64 u)) (hv : a.locals[c.rhsLocal]? = some (.i64 v))
    (hq : op.eval (w.low u) (w.low v) = some q) :
    Steps env (Codegen.divideKept c op w) s a (.i64 (w.word q) :: s) a :=
  (((Steps.localGet hu).cons .narrow).append ((Steps.localGet hv).cons .narrow)).append
    ((Steps.bin hq).cons .widen)

/-- A quotient is pushed for two kept operands. -/
lemma quotient_steps {u v : UInt64} (signed : Bool) (hu : a.locals[c.lhsLocal]? = some (.i64 (u &&& w.mask)))
    (hv : a.locals[c.rhsLocal]? = some (.i64 (v &&& w.mask))) (h0 : v &&& w.mask ≠ 0) :
    Steps env (if signed then
      [.localGet c.rhsLocal, .i64Const w.mask, .rel .w64 .eq,
        .ifElse true
          ([.i64Const 0, .localGet c.lhsLocal, .bin .w64 .sub] ++ Codegen.cut w)
          (Codegen.divideKept c .divS w)]
      else Codegen.divideKept c .divU w) s a
      (.i64 ((if signed then Ir.BinOp.divS else Ir.BinOp.divU).eval w u v) :: s) a := by
  have hlow : w.low (v &&& w.mask) ≠ 0 := by
    rw [Width.low_and_mask]
    exact fun h => h0 (Width.low_eq_zero_iff.1 h)
  cases signed with
  | false =>
    simp only [Bool.false_eq_true, if_false]
    rw [Codegen.divU_eval, ← Width.low_and_mask (v := u), ← Width.low_and_mask (v := v)]
    exact divideKept_steps hu hv (if_neg hlow)
  | true =>
    simp only [if_true]
    have heq : RelOp.holds .eq (v &&& w.mask).toBitVec w.mask.toBitVec = (v &&& w.mask == w.mask) := by
      rw [RelOp.holds, Bool.eq_iff_iff, beq_iff_eq, beq_iff_eq, UInt64.toBitVec_inj]
    refine (Steps.localGet hv).cons <| Steps.i64Const.cons <| Steps.rel64.cons ?_
    rw [heq, Codegen.divS_eval]
    apply Steps.ifElse
    split
    · next hmask =>
      have hsub : w.word ((w.low u).sdiv (w.low v)) = (0 - (u &&& w.mask)) &&& w.mask := by
        apply Width.word_eq
        have hneg := Width.low_sub (w := w) (x := 0) (y := u)
        rw [UInt64.zero_and, show w.low 0 = 0 by cases w <;> rfl] at hneg
        rw [hneg, Width.low_eq_allOnes_iff.2 (beq_iff_eq.1 hmask), Width.sdiv_allOnes]
        exact BitVec.zero_sub _
      rw [hsub]
      exact (Steps.i64Const.cons ((Steps.localGet hu).cons (.bin64 rfl))).append .cut
    · next hmask =>
      rw [← Width.low_and_mask (v := u), ← Width.low_and_mask (v := v)]
      refine divideKept_steps hu hv (if_neg ?_)
      rintro (h | h)
      · exact hlow h
      · have hall := h.2
        rw [Width.low_and_mask, Width.low_eq_allOnes_iff] at hall
        exact hmask (beq_iff_eq.2 hall)

/-- A quotient is pushed; division by zero gives zero. -/
lemma Tracks.divide (h : Tracks c r image f d a) (env : Environment ε H) (s : List Value) (signed : Bool)
    (hx : x.Declared c.types.size) (hy : y.Declared c.types.size) :
    ∃ a', Steps env (Codegen.divide c signed w x y) s a
      (.i64 ((if signed then Ir.BinOp.divS else Ir.BinOp.divU).eval w (f.read x) (f.read y)) :: s) a' ∧
      Tracks c r image f d a' := by
  obtain ⟨hlhs, -⟩ := h.keep env s spare_lhsLocal (.i64 (f.read x &&& w.mask))
  have h₁ := h.put spare_lhsLocal (.i64 (f.read x &&& w.mask))
  obtain ⟨hrhs, hget⟩ := h₁.keep env s spare_rhsLocal (.i64 (f.read y &&& w.mask))
  have h₂ := h₁.put spare_rhsLocal (.i64 (f.read y &&& w.mask))
  refine ⟨_, ((((h.readCut env s hx).append (hlhs.cons (h₁.readOperand env s hy))).append .cut).append
    (hrhs.cons ((hget s).cons (Steps.eqz64.cons (.ifElse ?_))))), h₂⟩
  split
  · next h0 =>
    have hlow := Width.low_eq_zero_iff.2 (beq_iff_eq.1 h0)
    have hzero : (if signed then Ir.BinOp.divS else Ir.BinOp.divU).eval w (f.read x) (f.read y) = 0 := by
      cases signed with
      | false =>
        exact Codegen.divU_eval.trans (by rw [hlow]; exact Width.word_zero ▸ congrArg _ BitVec.udiv_zero)
      | true =>
        exact Codegen.divS_eval.trans (by rw [hlow]; exact Width.word_zero ▸ congrArg _ BitVec.sdiv_zero)
    rw [hzero]
    exact .i64Const
  · next h0 =>
    refine quotient_steps signed ?_ ?_ (fun h => h0 (beq_iff_eq.2 h))
    · rw [get_put_of_ne (by unfold Context.lhsLocal Context.rhsLocal; omega)]
      exact get_put (spare_lhsLocal.lt h.size)
    · exact get_put (spare_rhsLocal.lt h₁.size)

/-- The value of a binary operator is pushed. -/
lemma Tracks.binary (h : Tracks c r image f d a) (env : Environment ε H) (s : List Value) (op : Ir.BinOp)
    (hx : x.Declared c.types.size) (hy : y.Declared c.types.size) :
    ∃ a', Steps env (Codegen.binary c op w x y) s a (.i64 (op.eval w (f.read x) (f.read y)) :: s) a' ∧
      Tracks c r image f d a' := by
  by_cases hdiv : op ≠ .divU ∧ op ≠ .divS
  · obtain ⟨q, hq, hvalue⟩ := Codegen.binOp_eval (w := w) (a := f.read x) (b := f.read y) hdiv
    have hcode : Codegen.binary c op w x y = Codegen.readNarrow x w ++ Codegen.readNarrow y w ++
        .bin w (Codegen.binOp op) :: Codegen.widen w := by
      cases op with
      | divU => exact absurd rfl hdiv.1
      | divS => exact absurd rfl hdiv.2
      | _ => rfl
    rw [hcode, ← hvalue]
    exact ⟨a, ((h.readNarrow env s hx).append (h.readNarrow env _ hy)).append ((Steps.bin hq).cons .widen), h⟩
  · obtain rfl | rfl : op = .divU ∨ op = .divS := by
      rwa [not_and_or, not_not, not_not] at hdiv
    · exact h.divide env s false hx hy
    · exact h.divide env s true hx hy

/-- Reading an operand does nothing else. -/
lemma read_bind {α : Type} (x : Operand) (k : UInt64 → Run Error (Frame H) α) (f : Frame H) :
    (Interp.read x >>= k) f = k (f.read x) f := rfl

/-! ### Code of operations -/

/-- The machine below a frame is held by what an activation shares. -/
abbrev HeldBelow (r : Nat) (image : UInt32) (f : Frame H) (a : Activation H) : Prop :=
  Holds r image f.machine a.shared

/-- How the code of operations is left: at its end when they do not return, and by returning their value. -/
def OpsLeave : Option UInt64 → Control → Prop
  | none, left => left = .next []
  | some value, left => left = .ret [.i64 value]

/-- Operations and their code end alike. -/
abbrev Ends (c : Context) (r d : Nat) (image : UInt32) :
    EStateM.Result (Halt Error) (Frame H) (Option UInt64) →
      EStateM.Result (Halt (Trap Error)) (Activation H) Control → Prop :=
  Simulated (fun o f left a => OpsLeave o left ∧ Tracks c r image f d a) (HeldBelow r image)

section
variable {services : Interp.Services H} {env : Environment Error H} {os : List Op} {is js : List Instruction}
  {fuel : Nat}

/-- Code that goes on at its end ends as the operation that it stands for. -/
lemma Ends.of_steps {x : EStateM.Result (Halt Error) (Frame H) (Option UInt64)} {f' : Frame H}
    (hx : x = .ok none f') (hsteps : Steps env is s a [] a') (h : Tracks c r image f' d a') (fuel : Nat) :
    Ends c r d image x (Instruction.execAll env fuel is s a) := by
  rw [hx, hsteps fuel]
  exact ⟨rfl, h⟩

/-- Operations and their code end alike also where a construct encloses the code. -/
lemma Ends.enclosed {x : EStateM.Result (Halt Error) (Frame H) (Option UInt64)}
    {y : Run (Trap Error) (Activation H) Control} (h : Ends c r d image x (y a)) (arity : Nat) :
    Ends c r d image x ((do return (← y).leave arity []) a) := by
  cases hy : y a with
  | error e a₁ =>
    rw [hy] at h
    rw [EStateM.bind_error hy]
    cases x with
    | ok o f => exact h.elim
    | error e' f => cases e <;> cases e' <;> exact h
  | ok left a₁ =>
    rw [hy] at h
    rw [EStateM.bind_ok hy]
    cases x with
    | error e f => cases e <;> exact h.elim
    | ok o f =>
      obtain ⟨hleft, h⟩ := h
      cases o <;> cases hleft <;> exact ⟨rfl, h⟩

/-- A host and an imported function that go the same way keep a frame tracked. -/
lemma Tracks.served {α : Type} (h : Tracks c r image f d a) {x : Run Error (Machine H) α}
    {y : Run Error (Instance H) α}
    (hxy : Alike r image (x f.machine) (y a.shared)) :
    Simulated (fun v f w a => v = w ∧ Tracks c r image f d a) (HeldBelow r image) (Interp.onMachine x f)
      (onShared y a) := by
  obtain ⟨m, locals⟩ := f
  obtain ⟨locals', shared⟩ := a
  simp only [Interp.onMachine, onShared]
  cases hx : x m with
  | ok v m₁ =>
    cases hy : y shared with
    | ok w shared₁ =>
      simp only [hx, hy] at hxy
      exact ⟨hxy.1, { h with holds := hxy.2 }⟩
    | error e shared₁ =>
      simp only [hx, hy] at hxy
      exact hxy.elim
  | error e m₁ =>
    cases hy : y shared with
    | ok w shared₁ =>
      simp only [hx, hy] at hxy
      exact hxy.elim
    | error e' shared₁ =>
      simp only [hx, hy] at hxy
      obtain ⟨rfl, -, hholds⟩ := hxy
      cases e with
      | error e => exact ⟨.imported e, hholds⟩
      | outOfFuel => exact hholds

/-- A module is linked to what serves a machine: the imported functions serve as the host does, and guest
accesses are checked for a guest memory of `r` bytes. -/
structure Linked (c : Context) (r : Nat) (image : UInt32) (services : Interp.Services H)
    (env : Environment Error H) : Prop where
  serves : Serves r image services env.imported
  imports : env.imports = c.imports
  ram : c.ramBytes = some r

lemma Linked.getElem?_imports (hl : Linked c r image services env) {i : Import} {index : Nat}
    (h : c.importIndex i = .ok index) : env.imports[index]? = some i := by
  rw [hl.imports]
  exact Codegen.importIndex_eq_ok h

namespace Tracks

variable (h : Tracks c r image f d a)
include h

lemma ram_le : r ≤ 2 ^ 32 := by
  have := h.holds.above
  have := image.toNat_lt
  omega

lemma ram_lt : r < 2 ^ 64 := Nat.lt_of_le_of_lt h.ram_le (by decide)

/-- A value that is written at the end of an operation. -/
lemma write_ends {dst : Place} (hdst : dst.Declared c.types.size) (v : UInt64) :
    Ends c r d image (.ok none (f.write c.types dst v))
      (Instruction.execAll env fuel (Codegen.writePlace c dst) [.i64 v] a) := by
  obtain ⟨a', hsteps, h'⟩ := h.writePlace env [] hdst v
  exact .of_steps rfl hsteps h' fuel

omit h in
/-- An operation whose value is pushed and then written. -/
lemma value_ends (h : Tracks c r image f d a') {o : Op} {dst : Place} {v : UInt64}
    (hrun : Interp.runOp services c.types o f = .ok none (f.write c.types dst v))
    (hsteps : Steps env is [] a [.i64 v] a') (hdst : dst.Declared c.types.size) :
    Ends c r d image (Interp.runOp services c.types o f)
      (Instruction.execAll env fuel (is ++ Codegen.writePlace c dst) [] a) := by
  rw [hrun, hsteps.execAll_append]
  exact h.write_ends hdst v

/-- Whether an operand is not zero is pushed. -/
lemma truthy (env : Environment ε H) (s : List Value) (hx : x.Declared c.types.size) :
    Steps env (Codegen.truthy x) s a (truth (f.read x != 0) :: s) a :=
  (h.readOperand env s hx).append .isNonzero

lemma ifThen_ends {yes : List Op} (hx : x.Declared c.types.size)
    (hyes : Ends c r d image (Interp.runOps services c.types yes f) (Instruction.execAll env fuel is [] a)) :
    Ends c r d image (Interp.runOp services c.types (.branch x yes []) f)
      (Instruction.execAll env fuel (Codegen.truthy x ++ [.ifThen is]) [] a) := by
  rw [(h.truthy env [] hx).execAll_append, Instruction.execAll_single, Instruction.exec_ifThen, Interp.runOp,
    read_bind]
  cases f.read x != 0 with
  | true => exact hyes.enclosed 0
  | false =>
    rw [Interp.runOps]
    exact ⟨rfl, h⟩

lemma ifElse_ends {yes no : List Op} (hx : x.Declared c.types.size)
    (hyes : Ends c r d image (Interp.runOps services c.types yes f) (Instruction.execAll env fuel is [] a))
    (hno : Ends c r d image (Interp.runOps services c.types no f) (Instruction.execAll env fuel js [] a)) :
    Ends c r d image (Interp.runOp services c.types (.branch x yes no) f)
      (Instruction.execAll env fuel (Codegen.truthy x ++ [.ifElse false is js]) [] a) := by
  rw [(h.truthy env [] hx).execAll_append, Instruction.execAll_single, Instruction.exec_ifElse, Interp.runOp,
    read_bind]
  cases f.read x != 0 with
  | true => exact hyes.enclosed 0
  | false => exact hno.enclosed 0

/-- An access within guest memory is one within linear memory, at the address cut to 32 bits. -/
lemma fits {addr : UInt64} {size : AccessSize} (hin : addr.toNat + size.bytes ≤ r) :
    addr.toUInt32.toNat + 0 + size.bytes ≤ (a.keep c addr).shared.memory.size := by
  rw [toNat_toUInt32_of_le hin h.ram_le, Nat.add_zero]
  exact hin.trans h.holds.le_memory

/-- An access succeeds when it is within the `r` bytes of guest memory. -/
lemma inRange (addr : UInt64) (n : Nat) : f.machine.mem.inRange addr n = decide (addr.toNat + n ≤ r) := by
  rw [Memory.inRange, h.holds.size_mem]

/-- A load takes its value from guest memory, or traps. -/
lemma load_ends (hl : Linked c r image services env) {size : AccessSize} {dst : Place}
    (hdst : dst.Declared c.types.size) (hx : x.Declared c.types.size) :
    Ends c r d image (Interp.runOp services c.types (.load size dst x) f)
      (Instruction.execAll env fuel (Codegen.guestAddress c x size ++ .load size 0 :: Codegen.writePlace c dst)
        [] a) := by
  by_cases hin : (f.read x).toNat + size.bytes ≤ r
  · have hload : Interp.load (f.read x) size f =
        .ok (Bytes.readWord f.machine.mem.bytes (f.read x).toNat size.bytes) f := by
      rw [Interp.load, Memory.read, h.inRange, decide_eq_true hin]
      rfl
    have hcut := toNat_toUInt32_of_le hin h.ram_le
    have hword : Steps env [.load size 0] [.i32 (f.read x).toUInt32] (a.keep c (f.read x)) _ _ :=
      Steps.load (h.fits hin)
    rw [hcut, Nat.add_zero, show (a.keep c (f.read x)).shared = a.shared from rfl,
      h.holds.readWord hin] at hword
    rw [List.append_cons]
    refine (h.put spare_lhsLocal (.i64 (f.read x))).value_ends ?_
      ((guestAddress_steps hl.ram h.ram_lt h.size (h.readOperand env [] hx) hin).append hword) hdst
    rw [Interp.runOp, read_bind, EStateM.bind_ok hload]
    rfl
  · have hload : Interp.load (f.read x) size f =
        .error (.error (.memory (.outOfBounds (f.read x) size.bytes f.machine.mem.size))) f := by
      rw [Interp.load, Memory.read, h.inRange, decide_eq_false hin]
      rfl
    have htraps := guestAddress_traps hl.ram h.ram_lt h.size (h.readOperand env [] hx) (Nat.not_le.1 hin)
    rw [htraps.append _ fuel, Interp.runOp, read_bind, EStateM.bind_error hload]
    exact ⟨.memory _, h.holds⟩

/-- A store changes guest memory, or traps. -/
lemma store_ends (hl : Linked c r image services env) {size : AccessSize}
    (hx : x.Declared c.types.size) (hy : y.Declared c.types.size) :
    Ends c r d image (Interp.runOp services c.types (.store size x y) f)
      (Instruction.execAll env fuel (Codegen.guestAddress c x size ++ Codegen.readOperand y ++ [.store size 0])
        [] a) := by
  by_cases hin : (f.read x).toNat + size.bytes ≤ r
  · have hstore : Interp.store (f.read x) size (f.read y) f = .ok () ⟨⟨f.machine.cpu,
        ⟨Bytes.writeWord f.machine.mem.bytes (f.read x).toNat size.bytes (f.read y)⟩, f.machine.host⟩,
        f.locals⟩ := by
      rw [Interp.store, Memory.write, h.inRange, decide_eq_true hin]
      rfl
    have hcut := toNat_toUInt32_of_le hin h.ram_le
    have hkept := h.put spare_lhsLocal (.i64 (f.read x))
    have hword : Steps env [.store size 0] [.i64 (f.read y), .i32 (f.read x).toUInt32]
      (a.keep c (f.read x)) _ _ := Steps.store (h.fits hin)
    rw [hcut, Nat.add_zero] at hword
    have hsteps := ((guestAddress_steps hl.ram h.ram_lt h.size (h.readOperand env [] hx) hin).append
      (hkept.readOperand env _ hy)).append hword
    have hrun : Interp.runOp services c.types (.store size x y) f = .ok none ⟨⟨f.machine.cpu,
        ⟨Bytes.writeWord f.machine.mem.bytes (f.read x).toNat size.bytes (f.read y)⟩, f.machine.host⟩,
        f.locals⟩ := by
      rw [Interp.runOp, read_bind, read_bind, EStateM.bind_ok hstore]
      rfl
    exact .of_steps hrun hsteps { hkept with holds := h.holds.writeWord hin (f.read y) } fuel
  · have hstore : Interp.store (f.read x) size (f.read y) f =
        .error (.error (.memory (.outOfBounds (f.read x) size.bytes f.machine.mem.size))) f := by
      rw [Interp.store, Memory.write, h.inRange, decide_eq_false hin]
      rfl
    have htraps := guestAddress_traps hl.ram h.ram_lt h.size (h.readOperand env [] hx) (Nat.not_le.1 hin)
    rw [(htraps.append _).append _ fuel, Interp.runOp, read_bind, read_bind, EStateM.bind_error hstore]
    exact ⟨.memory _, h.holds⟩

/-- The value that a host gives is written. -/
lemma served_ends {x : Run Error (Machine H) UInt64} {y : Run Error (Instance H) UInt64} {dst : Place}
    (hxy : Alike r image (x f.machine) (y a.shared))
    (hdst : dst.Declared c.types.size) :
    Ends c r d image
      ((do Interp.write c.types dst (← Interp.onMachine x); return none :
        Run Error (Frame H) (Option UInt64)) f)
      ((do Instruction.execAll env fuel (Codegen.writePlace c dst) [.i64 (← onShared y)]) a) := by
  apply (h.served hxy).bind
  rintro v f₁ _ a₁ ⟨rfl, h₁⟩
  exact h₁.write_ends hdst v

lemma call_ends (hl : Linked c r image services env) {dst : Place} {slot callee : Nat} (hslot : slot < 2 ^ 32)
    (hcallee : c.importIndex .callSlot = .ok callee) (hdst : dst.Declared c.types.size) :
    Ends c r d image (Interp.runOp services c.types (.call dst slot) f)
      (Instruction.execAll env fuel ([.i32Const (UInt32.ofNat slot), .localGet Context.imageLocal, .call callee] ++
        Codegen.writePlace c dst) [] a) := by
  have hargs : Steps env [.i32Const (UInt32.ofNat slot), .localGet Context.imageLocal] [] a
      [.i32 image, .i32 (UInt32.ofNat slot)] a := Steps.i32Const.cons (.localGet h.param)
  have hcall := hargs.execAll_append fuel (.call callee :: Codegen.writePlace c dst)
  simp only [Instruction.execAll_call (hl.getElem?_imports hcallee), callImport, bind_assoc,
    pure_bind] at hcall
  rw [Interp.runOp]
  exact hcall ▸ h.served_ends (hl.serves.call slot hslot h.holds) hdst

lemma jump_ends (hl : Linked c r image services env) {dst : Place} {callee : Nat}
    (hcallee : c.importIndex .jumpToPc = .ok callee) (hdst : dst.Declared c.types.size)
    (hx : x.Declared c.types.size) :
    Ends c r d image (Interp.runOp services c.types (.jump dst x) f)
      (Instruction.execAll env fuel (.localGet Context.imageLocal :: Codegen.readOperand x ++ .call callee ::
        Codegen.writePlace c dst) [] a) := by
  have hargs : Steps env (.localGet Context.imageLocal :: Codegen.readOperand x) [] a
      [.i64 (f.read x), .i32 image] a := (Steps.localGet h.param).cons (h.readOperand env _ hx)
  have hcall := hargs.execAll_append fuel (.call callee :: Codegen.writePlace c dst)
  simp only [Instruction.execAll_call (hl.getElem?_imports hcallee), callImport, bind_assoc,
    pure_bind] at hcall
  rw [Interp.runOp, read_bind]
  exact hcall ▸ h.served_ends (hl.serves.jump (f.read x) h.holds) hdst

end Tracks

mutual

/-- The code of an operation does what the operation does. -/
lemma op_ends (hl : Linked c r image services env) (fuel : Nat) : {o : Op} → {code : List Instruction} →
    {f : Frame H} → {a : Activation H} → o.Declared c.types.size → (∀ i : Op, i.Within [o] → i.Encoded) →
    Codegen.op c o = .ok code → Tracks c r image f d a →
    Ends c r d image (Interp.runOp services c.types o f) (Instruction.execAll env fuel code [] a)
  | .mov width dst src, code, f, a, ho, _, hcode, h => by
    rw [Op.Declared] at ho
    rw [Codegen.op] at hcode
    cases hcode
    exact h.value_ends (by rw [Interp.runOp]; rfl) (h.readCut env [] ho.2) ho.1
  | .bin op width dst lhs rhs, code, f, a, ho, _, hcode, h => by
    rw [Op.Declared] at ho
    rw [Codegen.op] at hcode
    cases hcode
    obtain ⟨a', hsteps, h'⟩ := h.binary (w := width) env [] op ho.2.1 ho.2.2
    exact h'.value_ends (by rw [Interp.runOp]; rfl) hsteps ho.1
  | .cmp op width dst lhs rhs, code, f, a, ho, _, hcode, h => by
    rw [Op.Declared] at ho
    rw [Codegen.op] at hcode
    cases hcode
    refine h.value_ends (by rw [Interp.runOp]; rfl) (((h.readNarrow env [] ho.2.1).append
      (h.readNarrow env _ ho.2.2)).append (Steps.rel.cons ?_)) ho.1
    rw [Codegen.relOp_holds]
    exact .extendTruth
  | .select dst cond yes no, code, f, a, ho, _, hcode, h => by
    rw [Op.Declared] at ho
    rw [Codegen.op] at hcode
    cases hcode
    rw [List.append_cons]
    refine h.value_ends (v := if f.read cond != 0 then f.read yes else f.read no) ?_
      ((((h.readOperand env [] ho.2.2.1).append (h.readOperand env _ ho.2.2.2)).append
        ((h.readOperand env _ ho.2.1).append .isNonzero)).append ?_) ho.1
    · rw [Interp.runOp, read_bind]
      cases f.read cond != 0 <;> rfl
    · rw [apply_ite Value.i64]
      exact .select
  | .extend bits signed dst src, code, f, a, ho, hbits, hcode, h => by
    rw [Op.Declared] at ho
    rw [Codegen.op] at hcode
    cases hcode
    have hn : 0 < bits ∧ bits ≤ 64 := hbits _ .head
    exact h.value_ends (by rw [Interp.runOp]; rfl) ((h.readOperand env [] ho.2).append
      (.extend hn.1 hn.2 signed)) ho.1
  | .load size dst addr, code, f, a, ho, _, hcode, h => by
    rw [Op.Declared] at ho
    rw [Codegen.op] at hcode
    cases hcode
    exact h.load_ends hl ho.1 ho.2
  | .store size addr value, code, f, a, ho, _, hcode, h => by
    rw [Op.Declared] at ho
    rw [Codegen.op] at hcode
    cases hcode
    exact h.store_ends hl ho.1 ho.2
  | .call dst slot, code, f, a, ho, hslot, hcode, h => by
    rw [Op.Declared] at ho
    rw [Codegen.op] at hcode
    obtain ⟨callee, hcallee, hcode⟩ := except_bind_eq_ok.mp hcode
    cases hcode
    exact h.call_ends hl (hslot _ .head) hcallee ho
  | .jump dst target, code, f, a, ho, _, hcode, h => by
    rw [Op.Declared] at ho
    rw [Codegen.op] at hcode
    obtain ⟨callee, hcallee, hcode⟩ := except_bind_eq_ok.mp hcode
    cases hcode
    exact h.jump_ends hl hcallee ho.1 ho.2
  | .branch cond yes no, code, f, a, ho, hin, hcode, h => by
    rw [Op.Declared] at ho
    obtain ⟨yes', hyes, ⟨rfl, rfl⟩ | ⟨no', hno, rfl⟩⟩ := Codegen.branch_eq_ok hcode <;>
      have ihyes := ops_ends hl fuel ho.2.1 (fun i hi => hin i (.ifTrue hi)) hyes h
    · exact h.ifThen_ends ho.1 ihyes
    · exact h.ifElse_ends ho.1 ihyes (ops_ends hl fuel ho.2.2 (fun i hi => hin i (.ifFalse hi)) hno h)
  | .ret value, code, f, a, ho, _, hcode, h => by
    rw [Op.Declared] at ho
    rw [Codegen.op] at hcode
    cases hcode
    rw [(h.readOperand env [] ho).execAll_append]
    have hrun : Interp.runOp services c.types (.ret value) f = .ok (some (f.read value)) f := by
      rw [Interp.runOp]
      rfl
    rw [hrun]
    exact ⟨rfl, h⟩

/-- The code of operations does what they do, one after the other. -/
lemma ops_ends (hl : Linked c r image services env) (fuel : Nat) : {os : List Op} → {code : List Instruction} →
    {f : Frame H} → {a : Activation H} → Op.AllDeclared c.types.size os → (∀ i : Op, i.Within os → i.Encoded) →
    Codegen.ops c os = .ok code → Tracks c r image f d a →
    Ends c r d image (Interp.runOps services c.types os f) (Instruction.execAll env fuel code [] a)
  | [], code, f, a, _, _, hcode, h => by
    rw [Codegen.ops] at hcode
    cases hcode
    rw [Interp.runOps, Instruction.execAll]
    exact ⟨rfl, h⟩
  | o :: rest, code, f, a, ho, hin, hcode, h => by
    rw [Op.AllDeclared] at ho
    obtain ⟨first, rest', hfirst, hrest, rfl⟩ := Codegen.ops_cons_eq_ok hcode
    rw [Interp.runOps, Instruction.execAll_append]
    apply (op_ends hl fuel ho.1 (fun i hi => hin i (hi.of_head rest)) hfirst h).bind
    rintro o₁ f₁ left a₁ ⟨hleft, h₁⟩
    cases o₁ with
    | none =>
      cases hleft
      exact ops_ends hl fuel ho.2 (fun i hi => hin i (.tail hi)) hrest h₁
    | some v =>
      cases hleft
      exact ⟨rfl, h₁⟩

end

end

end Dynarec.Wasm
