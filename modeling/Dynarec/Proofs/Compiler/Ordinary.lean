import Mathlib.Tactic.Common
import Dynarec.Compiler.Discover
import Dynarec.Proofs.Run

/-!
# Ordinary instructions

Every instruction except a call of a fixed address is compiled without the slot table: what it is
compiled to depends on where it is, on how the block may end and on the scratch locals that are
free, and is appended to the operations of the block, none of which calls through the table. Only
errors tell of the word. The pieces of the emitters are instances of one class, and so are their
combinations.
-/

namespace Dynarec.Compiler

open Ir (Op BinOp CmpOp Place Operand Local Ty)
open Instr

/-- No operation calls through the table. -/
def CallFree (ops : List Op) : Prop := Op.anyOf Op.isCall ops = false

lemma CallFree.append {first rest : List Op} (h : CallFree first) (h' : CallFree rest) :
    CallFree (first ++ rest) := by
  unfold CallFree at h h' ⊢
  induction first with
  | nil => exact h'
  | cons op first ih =>
    rw [Op.anyOf, Bool.or_eq_false_iff] at h
    rw [List.cons_append, Op.anyOf, h.1, ih h.2, Bool.or_false]

/-- How a step ends, on a state. -/
def endIn {ε σ α : Type} (result : Except ε α) (s : σ) : EStateM.Result ε σ α :=
  match result with
  | .ok a => .ok a s
  | .error e => .error e s

/-- An error of compiling, not of making code ready or running it. -/
def OfCompiling : Error → Prop
  | .invalidEncoding .. | .unsupportedInstruction .. | .fetchOutOfBounds _ | .blockLimit ..
  | .invariant _ => True
  | _ => False

/-- What compiling gives, if it is an error, is one of compiling. -/
def Honest {α : Type} (result : Except Error α) : Prop := ∀ e, result = .error e → OfCompiling e

lemma honest_ok {α : Type} (a : α) : Honest (.ok a) := nofun

lemma honest_error {α : Type} {e : Error} (h : OfCompiling e) :
    Honest (.error e : Except Error α) := by
  rintro e' ⟨⟩
  exact h

lemma Honest.cast {α β : Type} {e : Error} (h : Honest (.error e : Except Error α)) :
    Honest (.error e : Except Error β) := honest_error (h e rfl)

lemma honest_foldlM {α β : Type} {step : β → α → Except Error β}
    (hstep : ∀ b x, Honest (step b x)) (xs : List α) (b : β) : Honest (xs.foldlM step b) := by
  induction xs generalizing b with
  | nil => exact honest_ok b
  | cons x xs ih =>
    rw [List.foldlM_cons]
    have hx := hstep b x
    cases h : step b x with
    | error e =>
      rw [h] at hx
      exact hx.cast
    | ok b' => exact ih b'

/-- A result for a word, of which only an error may tell. -/
def about {α : Type} (word : UInt32) : Except (UInt32 → Error) α → Except Error α
  | .ok a => .ok a
  | .error e => .error (e word)

/-- An error that compiling gives for some word, if there is one, is one of compiling. -/
def Candid {α : Type} (result : Except (UInt32 → Error) α) : Prop :=
  ∀ word, Honest (about word result)

lemma candid_ok {α : Type} (a : α) : Candid (.ok a) := fun _ => honest_ok a

lemma candid_error {α : Type} {e : UInt32 → Error} (h : ∀ word, OfCompiling (e word)) :
    Candid (.error e : Except (UInt32 → Error) α) := fun word => honest_error (h word)

/-- A piece of an emitter that appends operations without calls and leaves the slots alone, both
without regard to the word and to the operations and slots before. -/
class Ordinary {α : Type} (m : EmitM α) : Prop where
  acts (pc : UInt64) (terminator : Option Terminator) (scratch : Ir.Scratch) :
    ∃ (result : Except (UInt32 → Error) α) (added : List Op) (terminator' : Option Terminator)
      (scratch' : Ir.Scratch), CallFree added ∧ Candid result ∧ ∀ word ops slots,
        m ⟨pc, word, ops, terminator, scratch, slots⟩ =
          endIn (about word result) ⟨pc, word, ops ++ added, terminator', scratch', slots⟩

lemma appendList_appendList {α : Type} (xs : Array α) (ys zs : List α) :
    xs ++ ys ++ zs = xs ++ (ys ++ zs) := by
  apply Array.ext'
  simp

/-- A piece that succeeds does so for every word, and appends to the operations. -/
lemma Ordinary.appends {α : Type} {m : EmitM α} [hm : Ordinary m] {b b' : Block} {a : α}
    (h : m b = .ok a b') : ∃ (added : List Op) (terminator : Option Terminator) (scratch : Ir.Scratch)
      (slots : Linking.Slots Linking.Code), ∀ word,
        m { b with word } = .ok a ⟨b.pc, word, b.ops ++ added, terminator, scratch, slots⟩ := by
  obtain ⟨result, added, terminator, scratch, -, -, hrun⟩ := hm.acts b.pc b.terminator b.scratch
  have hb := (hrun b.word b.ops b.slots).symm.trans h
  cases result with
  | error e => cases hb
  | ok a' =>
    cases hb
    exact ⟨added, terminator, scratch, b.slots, fun word => hrun word b.ops b.slots⟩

-- The size of an instance doubles with every step of an emitter.
set_option synthInstance.maxSize 100000000

section Pieces

variable {α β : Type}

/-- A piece that appends nothing and goes by the rest of the block. -/
lemma Ordinary.silent {m : EmitM α}
    (h : ∀ pc terminator scratch, ∃ result terminator' scratch', Candid result ∧
      ∀ word ops slots, m ⟨pc, word, ops, terminator, scratch, slots⟩ =
        endIn (about word result) ⟨pc, word, ops, terminator', scratch', slots⟩) : Ordinary m := by
  constructor
  intro pc terminator scratch
  obtain ⟨result, terminator', scratch', hresult, h⟩ := h pc terminator scratch
  exact ⟨result, [], terminator', scratch', rfl, hresult, fun word ops slots => by
    rw [h, Array.appendList_nil]⟩

instance ordinary_pure (a : α) : Ordinary (pure a : EmitM α) :=
  .silent fun _ terminator scratch => ⟨.ok a, terminator, scratch, candid_ok a, fun _ _ _ => rfl⟩

instance ordinary_bind {x : EmitM α} {f : α → EmitM β} [hx : Ordinary x] [hf : ∀ a, Ordinary (f a)] :
    Ordinary (x >>= f) := by
  constructor
  intro pc terminator scratch
  obtain ⟨result, added, terminator₁, scratch₁, hfree, hresult, h⟩ := hx.acts pc terminator scratch
  cases result with
  | error e =>
    exact ⟨.error e, added, terminator₁, scratch₁, hfree, fun word => (hresult word).cast,
      fun word ops slots => EStateM.bind_error (h word ops slots)⟩
  | ok a =>
    obtain ⟨result, added', terminator₂, scratch₂, hfree', hresult', h'⟩ :=
      (hf a).acts pc terminator₁ scratch₁
    refine ⟨result, added ++ added', terminator₂, scratch₂, ?_, hresult', ?_⟩
    · exact hfree.append hfree'
    · intro word ops slots
      rw [EStateM.bind_ok (h word ops slots), h', appendList_appendList]

instance ordinary_ite {p : Prop} [Decidable p] {x y : EmitM α} [hx : Ordinary x]
    [hy : Ordinary y] : Ordinary (if p then x else y) := by
  split
  · exact hx
  · exact hy

instance ordinary_forM {xs : List β} {f : β → EmitM PUnit} [hf : ∀ x, Ordinary (f x)] :
    Ordinary (xs.forM f) := by
  induction xs with
  | nil => exact ordinary_pure _
  | cons x xs ih =>
    have : Ordinary (f x >>= fun _ => xs.forM f) := inferInstance
    exact this

instance ordinary_currentPc : Ordinary currentPc :=
  .silent fun pc terminator scratch =>
    ⟨.ok pc, terminator, scratch, candid_ok pc, fun _ _ _ => rfl⟩

instance ordinary_terminate {t : Terminator} : Ordinary (terminate t) := by
  apply Ordinary.silent
  intro pc terminator scratch
  cases terminator with
  | none => exact ⟨.ok (), some t, scratch, candid_ok _, fun _ _ _ => rfl⟩
  | some t' =>
    exact ⟨.error fun _ => .invariant (.doubleTerminated pc), some t', scratch,
      candid_error fun _ => trivial, fun _ _ _ => rfl⟩

instance ordinary_alloc {ty : Ty} : Ordinary (alloc ty) :=
  .silent fun _ terminator scratch =>
    ⟨.ok (scratch.alloc ty).1, terminator, (scratch.alloc ty).2, candid_ok _, fun _ _ _ => rfl⟩

instance ordinary_release {l : Local} : Ordinary (release l) := by
  apply Ordinary.silent
  intro pc terminator scratch
  unfold release
  cases h : scratch.release l with
  | none =>
    exact ⟨.error fun _ => .invariant (.releaseUnallocated pc l.id), terminator, scratch,
      candid_error fun _ => trivial, fun _ _ _ => by simp only [h]; rfl⟩
  | some scratch' =>
    exact ⟨.ok (), terminator, scratch', candid_ok _, fun _ _ _ => by simp only [h]; rfl⟩

instance ordinary_invalid : Ordinary invalid :=
  .silent fun pc terminator scratch =>
    ⟨.error fun word => .invalidEncoding pc word, terminator, scratch, candid_error fun _ => trivial,
      fun _ _ _ => rfl⟩

instance ordinary_unsupported {mnemonic : String} : Ordinary (unsupported mnemonic) :=
  .silent fun pc terminator scratch =>
    ⟨.error fun word => .unsupportedInstruction pc word mnemonic, terminator, scratch,
      candid_error fun _ => trivial, fun _ _ _ => rfl⟩

/-- An operation that does not call is appended. -/
lemma ordinary_emit {op : Op} (h : op.any Op.isCall = false) : Ordinary (emit op) := by
  constructor
  intro pc terminator scratch
  refine ⟨.ok (), [op], terminator, scratch, by simpa [CallFree, Op.anyOf] using h, candid_ok _,
    fun word ops slots => ?_⟩
  rw [Array.appendList_cons, Array.appendList_nil]
  rfl

end Pieces

/-! ### Operations -/

section Operations

variable {width : Width} {dst : Place} {x y z : Operand}

instance ordinary_mov : Ordinary (emit (.mov width dst x)) := ordinary_emit rfl

instance ordinary_select : Ordinary (emit (.select dst x y z)) := ordinary_emit rfl

instance ordinary_extend {bits : Nat} {signed : Bool} :
    Ordinary (emit (.extend bits signed dst x)) := ordinary_emit rfl

instance ordinary_loadOp {size : AccessSize} : Ordinary (emit (.load size dst x)) :=
  ordinary_emit rfl

instance ordinary_storeOp {size : AccessSize} : Ordinary (emit (.store size x y)) :=
  ordinary_emit rfl

instance ordinary_jumpOp : Ordinary (emit (.jump dst x)) := ordinary_emit rfl

instance ordinary_retOp : Ordinary (emit (.ret x)) := ordinary_emit rfl

instance ordinary_bin {op : BinOp} : Ordinary (bin dst op width x y) := ordinary_emit rfl

instance ordinary_cmp {op : CmpOp} : Ordinary (cmp dst op width x y) := ordinary_emit rfl

instance ordinary_move {dst : Option Place} : Ordinary (move dst x width) := by
  cases dst with
  | none => exact ordinary_pure ()
  | some dst => exact ordinary_mov

instance ordinary_releaseAll {ls : List Local} : Ordinary (releaseAll ls) := by
  unfold releaseAll
  infer_instance

instance ordinary_goto {target : UInt64} {cond : Option Operand} : Ordinary (goto target cond) :=
  ordinary_terminate

instance ordinary_stop : Ordinary stop := ordinary_terminate

instance ordinary_copy : Ordinary (copy x) := by
  unfold copy
  infer_instance

instance ordinary_setNz : Ordinary (setNz width x) := by
  unfold setNz
  infer_instance

instance ordinary_setLogicalFlags : Ordinary (setLogicalFlags width x) := by
  unfold setLogicalFlags
  infer_instance

instance ordinary_complement : Ordinary (complement width x) := by
  unfold complement
  infer_instance

instance ordinary_addCarry : Ordinary (addCarry width x y z) := by
  unfold addCarry
  infer_instance

instance ordinary_addCarryFlags : Ordinary (addCarryFlags width x y z) := by
  unfold addCarryFlags
  dsimp only
  infer_instance

instance ordinary_testFlags {out : Local} {cond : Cpu.Cond} : Ordinary (testFlags out cond) := by
  cases cond <;> unfold testFlags <;> infer_instance

instance ordinary_condHolds {cond : Cpu.Cond} : Ordinary (condHolds cond) := by
  unfold condHolds
  infer_instance

instance ordinary_shifted {rm shift amount : Nat} : Ordinary (shifted width rm shift amount) := by
  unfold shifted
  infer_instance

instance ordinary_extended {option amount : Nat} : Ordinary (extended x option amount) := by
  unfold extended
  infer_instance

/-- The only operation that holds others returns. -/
instance ordinary_returnUnless {value : Local} {expected : UInt64} :
    Ordinary (returnUnless value expected) := by
  have hbranch : ∀ x : Operand, Ordinary (emit (.branch x [.ret (.place value)] [])) :=
    fun _ => ordinary_emit rfl
  unfold returnUnless
  infer_instance

end Operations

/-! ### Instructions -/

section Instructions

variable {width : Width} {size : AccessSize} {transfer : Transfer} {x y : Operand}
  {rd rn rm rt rt2 ra : Nat}

instance ordinary_gotoIf {target : UInt64} {taken : Local} : Ordinary (gotoIf target taken) := by
  unfold gotoIf
  infer_instance

instance ordinary_branchCond {cond : Cpu.Cond} {offset : UInt64} :
    Ordinary (branchCond cond offset) := by
  unfold branchCond
  infer_instance

instance ordinary_compareBranch {nonzero : Bool} {offset : UInt64} :
    Ordinary (compareBranch width nonzero rt offset) := by
  unfold compareBranch
  infer_instance

instance ordinary_testBranch {nonzero : Bool} {bit : Nat} {offset : UInt64} :
    Ordinary (testBranch nonzero bit rt offset) := by
  unfold testBranch
  infer_instance

instance ordinary_branch {offset : UInt64} : Ordinary (branch false offset) := by
  simp only [branch, Bool.false_eq_true, if_false]
  infer_instance

instance ordinary_jumpReg : Ordinary (jumpReg rn) := by
  unfold jumpReg
  infer_instance

instance ordinary_callReg : Ordinary (callReg rn) := by
  unfold callReg
  infer_instance

instance ordinary_returnTo : Ordinary (returnTo rn) := by
  unfold returnTo
  infer_instance

instance ordinary_unpackFlags {t : Local} : Ordinary (unpackFlags t x) := by
  unfold unpackFlags
  infer_instance

instance ordinary_exceptionReturn : Ordinary exceptionReturn := by
  unfold exceptionReturn
  infer_instance

instance ordinary_writePstate {field : PstateField} {imm : Nat} :
    Ordinary (writePstate field imm) := by
  cases field <;> unfold writePstate <;> infer_instance

instance ordinary_writeBinding {binding : Cpu.SysReg.Binding} :
    Ordinary (writeBinding x binding) := by
  cases binding <;> unfold writeBinding <;> infer_instance

instance ordinary_writeSysReg {selector : Nat} : Ordinary (writeSysReg selector rt) := by
  unfold writeSysReg
  split <;> infer_instance

instance ordinary_readBinding {dst : Place} {binding : Cpu.SysReg.Binding} :
    Ordinary (readBinding dst binding) := by
  cases binding <;> unfold readBinding <;> infer_instance

instance ordinary_readSysReg {selector : Nat} : Ordinary (readSysReg selector rt) := by
  unfold readSysReg
  split
  · infer_instance
  · split <;> infer_instance

instance ordinary_load {signed : Bool} : Ordinary (load x size signed) := by
  unfold load
  infer_instance

instance ordinary_transferAt : Ordinary (transferAt transfer size rt x) := by
  cases transfer <;> unfold transferAt <;> infer_instance

instance ordinary_addressed {offset : UInt64} {mode : AddrMode} {act : Operand → EmitM Unit}
    [∀ x, Ordinary (act x)] : Ordinary (addressed rn offset mode act) := by
  unfold addressed
  infer_instance

instance ordinary_literal {offset : UInt64} : Ordinary (literal transfer size rt offset) := by
  unfold literal
  infer_instance

instance ordinary_accessIndexed {option : Nat} {scaled : Bool} :
    Ordinary (accessIndexed transfer size option scaled rm rn rt) := by
  unfold accessIndexed
  infer_instance

instance ordinary_pairAt {isLoad signed : Bool} :
    Ordinary (pairAt isLoad size signed rt2 rt x) := by
  unfold pairAt
  infer_instance

instance ordinary_address {page : Bool} {offset : UInt64} : Ordinary (address page offset rd) := by
  unfold address
  infer_instance

instance ordinary_addSubImm {sub setFlags isShifted : Bool} {imm : Nat} :
    Ordinary (addSubImm width sub setFlags isShifted imm rn rd) := by
  unfold addSubImm
  infer_instance

instance ordinary_logicalImm {op : LogicOp} {value : UInt64} :
    Ordinary (logicalImm width op value rn rd) := by
  unfold logicalImm
  infer_instance

instance ordinary_moveWide {op : MoveWideOp} {shift imm : Nat} :
    Ordinary (moveWide width op shift imm rd) := by
  unfold moveWide
  split
  · infer_instance
  · cases op <;> infer_instance

instance ordinary_bitfieldTop {op : BitfieldOp} {imms : Nat} {dst : Place} :
    Ordinary (bitfieldTop width op imms x dst) := by
  cases op <;> unfold bitfieldTop <;> infer_instance

instance ordinary_bitfield {op : BitfieldOp} {immr imms : Nat} {wmask tmask : UInt64} :
    Ordinary (bitfield width op immr imms wmask tmask rn rd) := by
  unfold bitfield
  cases dest rd with
  | none => infer_instance
  | some rd =>
    dsimp only
    have htop : ∀ (result bottom : Local) (top : Option Local), Ordinary (do
        match top with
        | some top =>
          bin top .and width (.place top) (.imm (~~~tmask))
          bin result .or width (.place result) (.place top)
          release top
        | none => pure ()
        move (some rd) (.place result) width
        release result
        release bottom) := by
      intro result bottom top
      cases top <;> infer_instance
    infer_instance

instance ordinary_extract {lsb : Nat} : Ordinary (extract width lsb rm rn rd) := by
  unfold extract
  infer_instance

instance ordinary_complementIf {inverted : Bool} : Ordinary (complementIf inverted width x) := by
  unfold complementIf
  infer_instance

instance ordinary_logicalReg {op : LogicOp} {inverted : Bool} {shift amount : Nat} :
    Ordinary (logicalReg width op inverted shift amount rm rn rd) := by
  unfold logicalReg
  infer_instance

instance ordinary_addSub {sub setFlags : Bool} {dst : Option Place} :
    Ordinary (addSub width sub setFlags x y dst) := by
  unfold addSub
  cases dst <;> infer_instance

instance ordinary_addSubShifted {sub setFlags : Bool} {shift amount : Nat} :
    Ordinary (addSubShifted width sub setFlags shift amount rm rn rd) := by
  unfold addSubShifted
  infer_instance

instance ordinary_addSubExtended {sub setFlags : Bool} {option amount : Nat} :
    Ordinary (addSubExtended width sub setFlags option amount rm rn rd) := by
  unfold addSubExtended
  infer_instance

instance ordinary_addSubCarry {sub setFlags : Bool} :
    Ordinary (addSubCarry width sub setFlags rm rn rd) := by
  unfold addSubCarry
  infer_instance

instance ordinary_condCompare {sub : Bool} {second : CompareOperand} {cond : Cpu.Cond}
    {nzcv : Nat} : Ordinary (condCompare width sub second cond nzcv rn) := by
  unfold condCompare
  infer_instance

instance ordinary_condSelect {invert increment : Bool} {cond : Cpu.Cond} :
    Ordinary (condSelect width invert increment cond rm rn rd) := by
  unfold condSelect
  split
  · infer_instance
  · cases invert <;> cases increment <;> infer_instance

instance ordinary_twoSource {op : TwoSourceOp} : Ordinary (twoSource width op rm rn rd) := by
  unfold twoSource
  split <;> infer_instance

instance ordinary_threeSource {product : Product} {sub : Bool} :
    Ordinary (threeSource width product sub rm ra rn rd) := by
  unfold threeSource
  cases product <;> cases dest rd <;> infer_instance

/-- Every instruction is ordinary but a call of a fixed address. -/
lemma ordinary_lower {i : Instr} (h : ∀ offset, i ≠ .branch true offset) : Ordinary (lower i) := by
  cases i with
  | branch link offset =>
    cases link with
    | true => exact absurd rfl (h offset)
    | false => exact ordinary_branch
  | branchReg link rn =>
    unfold lower
    infer_instance
  | _ => all_goals unfold lower; infer_instance

/-- An instruction that is compiled is compiled alike for every word, and its operations are appended. -/
lemma lower_appends {i : Instr} {b b' : Block} (h : lower i b = .ok () b') :
    ∃ (added : List Op) (terminator : Option Terminator) (scratch : Ir.Scratch)
      (slots : Linking.Slots Linking.Code), ∀ word,
        lower i { b with word } = .ok () ⟨b.pc, word, b.ops ++ added, terminator, scratch, slots⟩ := by
  by_cases hcall : ∃ offset, i = .branch true offset
  · obtain ⟨offset, rfl⟩ := hcall
    -- what follows the call is ordinary
    have hrest : Ordinary (do
        returnUnless (b.scratch.alloc .i64).1 (b.pc + 4)
        release (b.scratch.alloc .i64).1) := inferInstance
    let link : Op := .mov .w64 (.x 30) (.imm (b.pc + 4))
    let call : Op := .call (b.scratch.alloc .i64).1 (b.slots.functionSlot (b.pc + offset)).1
    let called : Block := ⟨b.pc, b.word, (b.ops.push link).push call, b.terminator,
      (b.scratch.alloc .i64).2, (b.slots.functionSlot (b.pc + offset)).2⟩
    obtain ⟨added, terminator, scratch, slots, hword⟩ := hrest.appends (b := called) h
    refine ⟨link :: call :: added, terminator, scratch, slots, fun word => ?_⟩
    rw [Array.appendList_cons, Array.appendList_cons]
    exact hword word
  · have := ordinary_lower fun offset h => hcall ⟨offset, h⟩
    exact Ordinary.appends h

end Instructions

end Dynarec.Compiler
