import Dynarec.Proofs.Ir.Parts
import Dynarec.Proofs.Run

/-!
# What emitted code refers to

Emitted code calls host functions by index and branches to constructs by depth; the shape that it
is made from asks for them by name and by label. The constructs that a jump may lead to, blocks and
loops, are numbered in the order of the text. In the code, conditionals count for the depth of a
branch but have no number. The code refers to the same host functions and the same constructs as
the shape, in the same order.
-/

namespace Dynarec.Wasm

open Ir (Op Operand)

/-- Something that code refers to: a host function, or a construct by its number. -/
inductive Reference where
  | host (i : Import)
  | construct (number : Nat)
  deriving DecidableEq, Repr

/-- A block or loop around a place of a shape: its label, whether it is a loop, its number. -/
structure Construct where
  label : Nat
  isLoop : Bool
  number : Nat
  deriving DecidableEq, Repr

mutual

/-- The blocks and loops of an instruction, in order; `true` stands for a loop. -/
def Instruction.constructs : Instruction → List Bool
  | .block inner => false :: constructsAll inner
  | .loop inner => true :: constructsAll inner
  | .ifThen yes => constructsAll yes
  | .ifElse _ yes no => constructsAll yes ++ constructsAll no
  | _ => []

/-- The blocks and loops of instructions, in order. -/
def Instruction.constructsAll : List Instruction → List Bool
  | [] => []
  | i :: rest => i.constructs ++ constructsAll rest

end

mutual

/-- What an instruction refers to. The constructs around it are given by number, conditionals
without one, and its own are numbered from `next`. -/
def Instruction.references (imports : List Import) (around : List (Option Nat)) (next : Nat) :
    Instruction → List (Option Reference)
  | .block inner => referencesAll imports (some next :: around) (next + 1) inner
  | .loop inner => referencesAll imports (some next :: around) (next + 1) inner
  | .ifThen yes => referencesAll imports (none :: around) next yes
  | .ifElse _ yes no =>
    referencesAll imports (none :: around) next yes ++
      referencesAll imports (none :: around) (next + (constructsAll yes).length) no
  | .br depth => [around[depth]?.join.map .construct]
  | .call function => [imports[function]?.map .host]
  | _ => []

/-- What instructions refer to. -/
def Instruction.referencesAll (imports : List Import) (around : List (Option Nat)) (next : Nat) :
    List Instruction → List (Option Reference)
  | [] => []
  | i :: rest =>
    references imports around next i ++ referencesAll imports around (next + i.constructs.length) rest

end

end Dynarec.Wasm

namespace Dynarec.Ir

open Wasm (Import)

mutual

/-- The host functions that an operation asks for, in order. -/
def Op.hosts : Op → List Import
  | .call .. => [.callSlot]
  | .jump .. => [.jumpToPc]
  | .branch _ yes no => Op.hostsOf yes ++ Op.hostsOf no
  | _ => []

/-- The host functions that operations ask for, in order. -/
def Op.hostsOf : List Op → List Import
  | [] => []
  | op :: rest => op.hosts ++ Op.hostsOf rest

end

end Dynarec.Ir

namespace Dynarec.Shape

open Ir (Op Operand)
open Wasm (Construct Reference)

mutual

/-- The blocks and loops of a shape, in order; `true` stands for a loop. -/
def constructs {B C : Type} : Shape B C → List Bool
  | .seq items => constructsAll items
  | .block _ inner => false :: constructs inner
  | .loop _ inner => true :: constructs inner
  | .cond _ yes no => constructs yes ++ constructs no
  | .body _ | .br _ | .setDispatch _ => []

/-- The blocks and loops of shapes, in order. -/
def constructsAll {B C : Type} : List (Shape B C) → List Bool
  | [] => []
  | x :: rest => constructs x ++ constructsAll rest

end

mutual

/-- What a shape over operations refers to, inside some constructs and with its own numbered from
`next`. A jump leads to the innermost construct with its label, and charges the host first when
that is a loop. -/
def references (around : List Construct) (next : Nat) : Shape (List Op) Operand → List Reference
  | .seq items => referencesAll around next items
  | .body ops => (Op.hostsOf ops).map .host
  | .block label inner => references (⟨label, false, next⟩ :: around) (next + 1) inner
  | .loop label inner => references (⟨label, true, next⟩ :: around) (next + 1) inner
  | .cond _ yes no =>
    references around next yes ++ references around (next + (constructs yes).length) no
  | .br label =>
    match around.find? (·.label == label) with
    | some target =>
      (if target.isLoop then [.host .tick] else []) ++ [.construct target.number]
    | none => []
  | .setDispatch _ => []

/-- What shapes refer to. -/
def referencesAll (around : List Construct) (next : Nat) :
    List (Shape (List Op) Operand) → List Reference
  | [] => []
  | x :: rest =>
    references around next x ++ referencesAll around (next + (constructs x).length) rest

end

end Dynarec.Shape

namespace Dynarec.Wasm

open Ir (Op Operand)
open Instruction (constructsAll referencesAll)

variable {c : Context} {around : List (Option Nat)} {next : Nat}

/-- The constructs around a place in the code, those around it in the shape, and the numbers of the
former. -/
inductive Numbered : List Enclosing → List Construct → List (Option Nat) → Prop where
  | nil : Numbered [] [] []
  | construct {frames constructs around} (label : Nat) (isLoop : Bool) (number : Nat) :
    Numbered frames constructs around →
    Numbered (⟨some label, isLoop⟩ :: frames) (⟨label, isLoop, number⟩ :: constructs)
      (some number :: around)
  | arm {frames constructs around} : Numbered frames constructs around →
    Numbered (⟨none, false⟩ :: frames) constructs (none :: around)

/-- The innermost construct with a label is the same for the shape and for the code. -/
lemma Numbered.find {frames : List Enclosing} {constructs : List Construct}
    (h : Numbered frames constructs around) {label depth : Nat}
    (hfound : frames.findIdx? (·.label == some label) = some depth) :
    ∃ target, constructs.find? (·.label == label) = some target ∧
      around[depth]? = some (some target.number) ∧
      frames[depth]?.map (·.isLoop) = some target.isLoop := by
  induction h generalizing depth with
  | nil => simp at hfound
  | construct label' isLoop number h ih =>
    rw [List.findIdx?_cons] at hfound
    by_cases heq : label' = label
    · obtain rfl : 0 = depth := by simpa [heq] using hfound
      exact ⟨⟨label', isLoop, number⟩, by simp [heq], rfl, rfl⟩
    · obtain ⟨depth', hdepth', rfl⟩ := by simpa [heq] using hfound
      obtain ⟨target, htarget, haround, hloop⟩ := ih hdepth'
      exact ⟨target, by simpa [heq] using htarget, haround, hloop⟩
  | arm h ih =>
    obtain ⟨depth', hdepth', rfl⟩ := by simpa [List.findIdx?_cons] using hfound
    obtain ⟨target, htarget, haround, hloop⟩ := ih hdepth'
    exact ⟨target, htarget, haround, hloop⟩

@[simp] lemma constructsAll_append (first rest : List Instruction) :
    constructsAll (first ++ rest) = constructsAll first ++ constructsAll rest := by
  induction first with
  | nil => rfl
  | cons i first ih => simp [constructsAll, ih]

@[simp] lemma referencesAll_append (imports : List Import) (first rest : List Instruction) :
    referencesAll imports around next (first ++ rest) =
      referencesAll imports around next first ++
        referencesAll imports around (next + (constructsAll first).length) rest := by
  induction first generalizing next with
  | nil => simp [referencesAll, constructsAll]
  | cons i first ih => simp [referencesAll, constructsAll, ih, Nat.add_assoc]

mutual

/-- Whether an instruction has neither blocks nor loops and refers to nothing. -/
def Instruction.isPlain : Instruction → Bool
  | .block _ | .loop _ | .br _ | .call _ => false
  | .ifThen yes => arePlain yes
  | .ifElse _ yes no => arePlain yes && arePlain no
  | _ => true

/-- Whether instructions have neither blocks nor loops and refer to nothing. -/
def Instruction.arePlain : List Instruction → Bool
  | [] => true
  | i :: rest => i.isPlain && arePlain rest

end

open Instruction (arePlain)

@[simp] lemma arePlain_nil : arePlain [] = true := by rw [arePlain]

@[simp] lemma arePlain_cons (i : Instruction) (rest : List Instruction) :
    arePlain (i :: rest) = (i.isPlain && arePlain rest) := by rw [arePlain]

@[simp] lemma arePlain_append (first rest : List Instruction) :
    arePlain (first ++ rest) = (arePlain first && arePlain rest) := by
  induction first with
  | nil => simp
  | cons i first ih => simp [ih, Bool.and_assoc]

mutual

lemma constructs_of_isPlain : {i : Instruction} → i.isPlain = true → i.constructs = []
  | .ifThen yes, h => by
    rw [Instruction.constructs]
    exact constructsAll_of_arePlain (by simpa [Instruction.isPlain] using h)
  | .ifElse result yes no, h => by
    have ⟨hyes, hno⟩ : arePlain yes = true ∧ arePlain no = true := by
      simpa [Instruction.isPlain] using h
    rw [Instruction.constructs, constructsAll_of_arePlain hyes, constructsAll_of_arePlain hno,
      List.append_nil]
  | .block _, h | .loop _, h | .br _, h | .call _, h => by simp [Instruction.isPlain] at h
  | .unreachable, _ | .ret, _ | .drop, _ | .select, _ | .localGet _, _ | .localSet _, _
  | .load .., _ | .store .., _ | .i32Const _, _ | .i64Const _, _ | .eqz64, _ | .rel .., _
  | .bin .., _ | .wrap, _ | .extendU, _ => by rw [Instruction.constructs] <;> exact nofun

lemma constructsAll_of_arePlain :
    {code : List Instruction} → arePlain code = true → constructsAll code = []
  | [], _ => by rw [constructsAll]
  | i :: rest, h => by
    have ⟨hi, hrest⟩ : i.isPlain = true ∧ arePlain rest = true := by simpa using h
    rw [constructsAll, constructs_of_isPlain hi, constructsAll_of_arePlain hrest, List.append_nil]

end

mutual

lemma references_of_isPlain {imports : List Import} {around : List (Option Nat)} {next : Nat} :
    {i : Instruction} → i.isPlain = true → i.references imports around next = []
  | .ifThen yes, h => by
    rw [Instruction.references]
    exact referencesAll_of_arePlain (by simpa [Instruction.isPlain] using h)
  | .ifElse result yes no, h => by
    have ⟨hyes, hno⟩ : arePlain yes = true ∧ arePlain no = true := by
      simpa [Instruction.isPlain] using h
    rw [Instruction.references, referencesAll_of_arePlain hyes, referencesAll_of_arePlain hno,
      List.append_nil]
  | .block _, h | .loop _, h | .br _, h | .call _, h => by simp [Instruction.isPlain] at h
  | .unreachable, _ | .ret, _ | .drop, _ | .select, _ | .localGet _, _ | .localSet _, _
  | .load .., _ | .store .., _ | .i32Const _, _ | .i64Const _, _ | .eqz64, _ | .rel .., _
  | .bin .., _ | .wrap, _ | .extendU, _ => by rw [Instruction.references] <;> exact nofun

lemma referencesAll_of_arePlain {imports : List Import} {around : List (Option Nat)} {next : Nat} :
    {code : List Instruction} → arePlain code = true →
      referencesAll imports around next code = []
  | [], _ => by rw [referencesAll]
  | i :: rest, h => by
    have ⟨hi, hrest⟩ : i.isPlain = true ∧ arePlain rest = true := by simpa using h
    rw [referencesAll, references_of_isPlain hi, referencesAll_of_arePlain hrest, List.append_nil]

end

namespace Codegen

@[simp] lemma arePlain_cut (width : Width) : arePlain (cut width) = true := by
  cases width <;> rfl

@[simp] lemma arePlain_narrow (width : Width) : arePlain (narrow width) = true := by
  cases width <;> rfl

@[simp] lemma arePlain_widen (width : Width) : arePlain (widen width) = true := by
  cases width <;> rfl

@[simp] lemma arePlain_selectedSpAddress : arePlain selectedSpAddress = true := by rfl

@[simp] lemma arePlain_currentBankAddress : arePlain currentBankAddress = true := by rfl

@[simp] lemma arePlain_readPlace (p : Ir.Place) : arePlain (readPlace p) = true := by
  unfold readPlace
  split <;> simp [imageWord, Instruction.isPlain]
  split <;> simp [Instruction.isPlain]

@[simp] lemma arePlain_readOperand (x : Operand) : arePlain (readOperand x) = true := by
  cases x <;> simp [readOperand, Instruction.isPlain]

@[simp] lemma arePlain_normalize (p : Ir.Place) : arePlain (normalize p) = true := by
  unfold normalize
  split <;> simp [mask, Instruction.isPlain]

lemma arePlain_writeAt {address adjust : List Instruction} {offset : Nat}
    (haddress : arePlain address = true) (hadjust : arePlain adjust = true) :
    arePlain (writeAt c address adjust offset) = true := by
  simp [writeAt, Instruction.isPlain, haddress, hadjust]

@[simp] lemma arePlain_writePlace (p : Ir.Place) : arePlain (writePlace c p) = true := by
  unfold writePlace
  split
  · split <;> simp [Instruction.isPlain]
  · exact arePlain_writeAt (by simp) rfl
  · exact arePlain_writeAt (by simp) rfl
  · exact arePlain_writeAt (by simp) rfl
  · split
    · rfl
    · exact arePlain_writeAt rfl rfl
  · exact arePlain_writeAt rfl (by simp)

@[simp] lemma arePlain_truthy (x : Operand) : arePlain (truthy x) = true := by
  simp [truthy, Instruction.isPlain]

@[simp] lemma arePlain_readNarrow (x : Operand) (width : Width) :
    arePlain (readNarrow x width) = true := by
  simp [readNarrow]

@[simp] lemma arePlain_divideKept (op : BinOp) (width : Width) :
    arePlain (divideKept c op width) = true := by
  simp [divideKept, Instruction.isPlain]

@[simp] lemma arePlain_binary (op : Ir.BinOp) (width : Width) (lhs rhs : Operand) :
    arePlain (binary c op width lhs rhs) = true := by
  unfold binary
  split <;> simp [divide, Instruction.isPlain]

@[simp] lemma arePlain_guestAddress (addr : Operand) (size : AccessSize) :
    arePlain (guestAddress c addr size) = true := by
  unfold guestAddress
  cases c.ramBytes with
  | none => simp [Instruction.isPlain]
  | some ram =>
    simp only [arePlain_append, arePlain_readOperand, arePlain_cons, Bool.true_and]
    split <;> simp [Instruction.isPlain]

@[simp] lemma arePlain_extend (bits : Nat) (signed : Bool) :
    arePlain (extend bits signed) = true := by
  unfold extend
  split
  · rfl
  · split <;> simp [mask, Instruction.isPlain]

@[simp] lemma arePlain_test (t : Test Operand) : arePlain (test c t) = true := by
  cases t <;> simp [test, Instruction.isPlain]

lemma importIndex_eq_ok {i : Import} {index : Nat} (h : c.importIndex i = .ok index) :
    c.imports[index]? = some i := by
  unfold Context.importIndex at h
  cases hfound : c.imports.findIdx? (· == i) with
  | none => simp [hfound] at h
  | some found =>
    obtain rfl : found = index := by simpa [hfound] using h
    obtain ⟨hlt, hi, -⟩ := List.findIdx?_eq_some_iff_getElem.mp hfound
    simpa [List.getElem?_eq_getElem hlt] using hi

lemma exists_importIndex {i : Import} (h : i ∈ c.imports) :
    ∃ index, c.importIndex i = .ok index := by
  unfold Context.importIndex
  cases hfound : c.imports.findIdx? (· == i) with
  | none => exact absurd (List.findIdx?_eq_none_iff.mp hfound i h) (by simp)
  | some found => exact ⟨found, rfl⟩

/-! ### The parts of code -/

section
variable {frames : List Enclosing} {code : List Instruction}

lemma branch_eq_ok {cond : Operand} {yes no : List Op} (h : op c (.branch cond yes no) = .ok code) :
    ∃ yes', ops c yes = .ok yes' ∧
      (no = [] ∧ code = truthy cond ++ [.ifThen yes'] ∨
        ∃ no', ops c no = .ok no' ∧ code = truthy cond ++ [.ifElse false yes' no']) := by
  rw [op] at h
  obtain ⟨yes', hyes, h⟩ := except_bind_eq_ok.mp h
  refine ⟨yes', hyes, ?_⟩
  cases no with
  | nil =>
    cases h
    exact .inl ⟨rfl, rfl⟩
  | cons o rest =>
    obtain ⟨no', hno, h⟩ := except_bind_eq_ok.mp h
    cases h
    exact .inr ⟨no', hno, rfl⟩

lemma ops_cons_eq_ok {o : Op} {rest : List Op} (h : ops c (o :: rest) = .ok code) :
    ∃ first rest', op c o = .ok first ∧ ops c rest = .ok rest' ∧ code = first ++ rest' := by
  rw [ops] at h
  obtain ⟨first, hfirst, h⟩ := except_bind_eq_ok.mp h
  obtain ⟨rest', hrest, h⟩ := except_bind_eq_ok.mp h
  cases h
  exact ⟨first, rest', hfirst, hrest, rfl⟩

lemma block_eq_ok {label : Nat} {inner : Shape (List Op) Operand}
    (h : shape c frames (.block label inner) = .ok code) :
    ∃ inner', shape c (⟨some label, false⟩ :: frames) inner = .ok inner' ∧
      code = [.block inner'] := by
  rw [shape] at h
  obtain ⟨inner', hinner, h⟩ := except_bind_eq_ok.mp h
  cases h
  exact ⟨inner', hinner, rfl⟩

lemma loop_eq_ok {label : Nat} {inner : Shape (List Op) Operand}
    (h : shape c frames (.loop label inner) = .ok code) :
    ∃ inner', shape c (⟨some label, true⟩ :: frames) inner = .ok inner' ∧
      code = [.loop inner'] := by
  rw [shape] at h
  obtain ⟨inner', hinner, h⟩ := except_bind_eq_ok.mp h
  cases h
  exact ⟨inner', hinner, rfl⟩

lemma eq_of_isEmptySeq {B C : Type} {x : Shape B C} (h : isEmptySeq x = true) : x = .seq [] := by
  unfold isEmptySeq at h
  split at h
  · rfl
  · cases h

/-- An arm of a test is left out only if it is empty. -/
lemma cond_eq_ok {t : Test Operand} {yes no : Shape (List Op) Operand}
    (h : shape c frames (.cond t yes no) = .ok code) :
    ∃ yes', shape c (⟨none, false⟩ :: frames) yes = .ok yes' ∧
      (no = .seq [] ∧ code = test c t ++ [.ifThen yes'] ∨
        ∃ no', shape c (⟨none, false⟩ :: frames) no = .ok no' ∧
          code = test c t ++ [.ifElse false yes' no']) := by
  rw [shape] at h
  obtain ⟨yes', hyes, h⟩ := except_bind_eq_ok.mp h
  refine ⟨yes', hyes, ?_⟩
  split at h
  · next hempty =>
    cases h
    exact .inl ⟨eq_of_isEmptySeq hempty, rfl⟩
  · obtain ⟨no', hno, h⟩ := except_bind_eq_ok.mp h
    cases h
    exact .inr ⟨no', hno, rfl⟩

lemma shapes_cons_eq_ok {x : Shape (List Op) Operand} {rest : List (Shape (List Op) Operand)}
    (h : shapes c frames (x :: rest) = .ok code) :
    ∃ first rest', shape c frames x = .ok first ∧ shapes c frames rest = .ok rest' ∧
      code = first ++ rest' := by
  rw [shapes] at h
  obtain ⟨first, hfirst, h⟩ := except_bind_eq_ok.mp h
  obtain ⟨rest', hrest, h⟩ := except_bind_eq_ok.mp h
  cases h
  exact ⟨first, rest', hfirst, hrest, rfl⟩

end

/-! ### Code for host functions that are imported -/

mutual

lemma exists_op : (o : Op) → (∀ i ∈ o.hosts, i ∈ c.imports) → ∃ code, op c o = .ok code
  | .call dst slot, h => by
    obtain ⟨callee, hcallee⟩ := exists_importIndex (h .callSlot (by simp [Op.hosts]))
    exact ⟨_, by rw [op, hcallee]; rfl⟩
  | .jump dst target, h => by
    obtain ⟨callee, hcallee⟩ := exists_importIndex (h .jumpToPc (by simp [Op.hosts]))
    exact ⟨_, by rw [op, hcallee]; rfl⟩
  | .branch cond yes no, h => by
    rw [Op.hosts] at h
    obtain ⟨yes', hyes⟩ := exists_ops yes fun i hi => h i (List.mem_append_left _ hi)
    obtain ⟨no', hno⟩ := exists_ops no fun i hi => h i (List.mem_append_right _ hi)
    rw [op, hyes]
    cases no with
    | nil => exact ⟨_, rfl⟩
    | cons o rest => exact ⟨_, by simp only [hno]; rfl⟩
  | .mov .., _ | .bin .., _ | .cmp .., _ | .select .., _ | .extend .., _ | .load .., _
  | .store .., _ | .ret _, _ => ⟨_, by rw [op]⟩

lemma exists_ops : (os : List Op) → (∀ i ∈ Op.hostsOf os, i ∈ c.imports) →
    ∃ code, ops c os = .ok code
  | [], _ => ⟨_, by rw [ops]⟩
  | o :: rest, h => by
    rw [Op.hostsOf] at h
    obtain ⟨first, hfirst⟩ := exists_op o fun i hi => h i (List.mem_append_left _ hi)
    obtain ⟨rest', hrest⟩ := exists_ops rest fun i hi => h i (List.mem_append_right _ hi)
    exact ⟨_, by rw [ops, hfirst, hrest]; rfl⟩

end

/-- Code without constructs that refers to some host functions only. -/
def Asks (c : Context) (code : List Instruction) (hosts : List Import) : Prop :=
  constructsAll code = [] ∧ ∀ around next,
    referencesAll c.imports around next code = hosts.map fun i => some (.host i)

lemma asks_nothing {code : List Instruction} (h : arePlain code = true) : Asks c code [] :=
  ⟨constructsAll_of_arePlain h, fun _ _ => referencesAll_of_arePlain h⟩

lemma Asks.append {first rest : List Instruction} {hosts hosts' : List Import}
    (h : Asks c first hosts) (h' : Asks c rest hosts') :
    Asks c (first ++ rest) (hosts ++ hosts') :=
  ⟨by simp [h.1, h'.1], fun around next => by simp [h.2, h'.2]⟩

lemma asks_call {i : Import} {index : Nat} (h : c.importIndex i = .ok index) :
    Asks c [.call index] [i] := by
  constructor
  · simp [constructsAll, Instruction.constructs]
  · intro around next
    simp [referencesAll, Instruction.references, importIndex_eq_ok h]

lemma asks_ifThen {yes : List Instruction} {hosts : List Import} (h : Asks c yes hosts) :
    Asks c [.ifThen yes] hosts := by
  constructor
  · simp [constructsAll, Instruction.constructs, h.1]
  · intro around next
    simp [referencesAll, Instruction.references, h.2]

lemma asks_ifElse {result : Bool} {yes no : List Instruction} {hosts hosts' : List Import}
    (h : Asks c yes hosts) (h' : Asks c no hosts') :
    Asks c [.ifElse result yes no] (hosts ++ hosts') := by
  constructor
  · simp [constructsAll, Instruction.constructs, h.1, h'.1]
  · intro around next
    simp [referencesAll, Instruction.references, h.2, h'.2]

mutual

lemma op_asks : {o : Op} → {code : List Instruction} → op c o = .ok code → Asks c code o.hosts
  | .call dst slot, code, h => by
    rw [op] at h
    obtain ⟨callee, hcallee, h⟩ := except_bind_eq_ok.mp h
    cases h
    have hpush : Asks c [.i32Const (UInt32.ofNat slot), .localGet Context.imageLocal] [] :=
      asks_nothing rfl
    have hwrite : Asks c (writePlace c dst) [] := asks_nothing (by simp)
    exact hpush.append ((asks_call hcallee).append hwrite)
  | .jump dst target, code, h => by
    rw [op] at h
    obtain ⟨callee, hcallee, h⟩ := except_bind_eq_ok.mp h
    cases h
    have hpush : Asks c (.localGet Context.imageLocal :: readOperand target) [] :=
      asks_nothing (by simp [Instruction.isPlain])
    have hwrite : Asks c (writePlace c dst) [] := asks_nothing (by simp)
    exact hpush.append ((asks_call hcallee).append hwrite)
  | .branch cond yes no, code, h => by
    obtain ⟨yes', hyes, ⟨rfl, rfl⟩ | ⟨no', hno, rfl⟩⟩ := branch_eq_ok h <;> rw [Op.hosts]
    · rw [Op.hostsOf, List.append_nil]
      exact (asks_nothing (by simp)).append (asks_ifThen (ops_asks hyes))
    · exact (asks_nothing (by simp)).append (asks_ifElse (ops_asks hyes) (ops_asks hno))
  | .mov .., code, h | .bin .., code, h | .cmp .., code, h | .select .., code, h
  | .extend .., code, h | .load .., code, h | .store .., code, h | .ret _, code, h => by
    rw [op] at h
    cases h
    exact asks_nothing (by simp [Instruction.isPlain])

lemma ops_asks : {os : List Op} → {code : List Instruction} → ops c os = .ok code →
    Asks c code (Op.hostsOf os)
  | [], code, h => by
    rw [ops] at h
    cases h
    exact asks_nothing rfl
  | o :: rest, code, h => by
    obtain ⟨first, rest', hfirst, hrest, rfl⟩ := ops_cons_eq_ok h
    exact (op_asks hfirst).append (ops_asks hrest)

end

/-- The labels of the constructs around a place. -/
def labelsOf (frames : List Enclosing) : List Nat := frames.filterMap (·.label)

lemma exists_jump {frames : List Enclosing} {label : Nat} :
    (∃ code, jump c frames label = .ok code) ↔ label ∈ labelsOf frames := by
  have hmem : label ∈ labelsOf frames ↔ ∃ f ∈ frames, f.label = some label := by
    simp [labelsOf]
  rw [hmem]
  unfold jump
  cases hfound : frames.findIdx? (·.label == some label) with
  | none =>
    have hnone := List.findIdx?_eq_none_iff.mp hfound
    constructor
    · rintro ⟨code, h⟩
      cases h
    · rintro ⟨f, hf, hlabel⟩
      have := hnone f hf
      simp [hlabel] at this
  | some depth =>
    obtain ⟨hlt, hlabel, -⟩ := List.findIdx?_eq_some_iff_getElem.mp hfound
    refine ⟨fun _ => ⟨frames[depth], List.getElem_mem hlt, by simpa using hlabel⟩, fun _ => ⟨_, rfl⟩⟩

/-- Every host function that the operations of a shape ask for is imported. -/
abbrev Supplied (imports : List Import) (x : Shape (List Op) Operand) : Prop :=
  x.All (fun os => ∀ i ∈ Op.hostsOf os, i ∈ imports) fun _ => True

/-- A step that only builds something from a result succeeds when there is one. -/
lemma exists_bind_pure {ε α β : Type} {x : Except ε α} {f : α → β} :
    (∃ b, (do return f (← x)) = .ok b) ↔ ∃ a, x = .ok a := by
  cases x with
  | error e => exact ⟨nofun, nofun⟩
  | ok a => exact ⟨fun _ => ⟨a, rfl⟩, fun _ => ⟨f a, rfl⟩⟩

mutual

/-- Emission succeeds exactly when every jump has a construct to lead to. -/
lemma exists_shape : {x : Shape (List Op) Operand} → (frames : List Enclosing) →
    Supplied c.imports x →
    ((∃ code, shape c frames x = .ok code) ↔ x.Scoped (labelsOf frames))
  | .seq items, frames, h => by
    rw [shape, Shape.Scoped]
    exact exists_shapes frames (by simpa [Supplied, Shape.All] using h)
  | .body os, frames, h => by
    rw [shape, Shape.Scoped]
    exact ⟨fun _ => trivial, fun _ => exists_ops os (by simpa [Supplied, Shape.All] using h)⟩
  | .block label inner, frames, h => by
    rw [shape, Shape.Scoped]
    exact exists_bind_pure.trans (exists_shape (⟨some label, false⟩ :: frames)
      (by simpa [Supplied, Shape.All] using h))
  | .loop label inner, frames, h => by
    rw [shape, Shape.Scoped]
    exact exists_bind_pure.trans (exists_shape (⟨some label, true⟩ :: frames)
      (by simpa [Supplied, Shape.All] using h))
  | .cond t yes no, frames, h => by
    have ⟨hyes, hno⟩ : Supplied c.imports yes ∧ Supplied c.imports no := by
      cases t <;> simpa [Supplied, Shape.All] using h
    have ihyes := exists_shape (⟨none, false⟩ :: frames) hyes
    have ihno := exists_shape (⟨none, false⟩ :: frames) hno
    rw [shape, Shape.Scoped]
    simp only [except_bind_eq_ok]
    constructor
    · rintro ⟨_, code, hcode, hrest⟩
      refine ⟨ihyes.mp ⟨code, hcode⟩, ?_⟩
      by_cases hempty : isEmptySeq no = true
      · rw [eq_of_isEmptySeq hempty]
        simp [Shape.Scoped, Shape.ScopedAll]
      · rw [if_neg hempty] at hrest
        obtain ⟨code', hcode', -⟩ := except_bind_eq_ok.mp hrest
        exact ihno.mp ⟨code', hcode'⟩
    · rintro ⟨hyes, hno⟩
      obtain ⟨code, hcode⟩ := ihyes.mpr hyes
      obtain ⟨code', hcode'⟩ := ihno.mpr hno
      by_cases hempty : isEmptySeq no = true
      · exact ⟨_, code, hcode, by rw [if_pos hempty]; rfl⟩
      · exact ⟨_, code, hcode, by rw [if_neg hempty, hcode']; rfl⟩
  | .br label, frames, _ => by
    rw [shape, Shape.Scoped]
    exact exists_jump
  | .setDispatch id, frames, _ => by
    rw [shape, Shape.Scoped]
    exact ⟨fun _ => trivial, fun _ => ⟨_, rfl⟩⟩

lemma exists_shapes : {items : List (Shape (List Op) Operand)} → (frames : List Enclosing) →
    Shape.AllOf (fun os => ∀ i ∈ Op.hostsOf os, i ∈ c.imports) (fun _ => True) items →
    ((∃ code, shapes c frames items = .ok code) ↔ Shape.ScopedAll (labelsOf frames) items)
  | [], frames, _ => by
    rw [shapes, Shape.ScopedAll]
    exact ⟨fun _ => trivial, fun _ => ⟨_, rfl⟩⟩
  | x :: rest, frames, h => by
    rw [Shape.AllOf] at h
    have ih := exists_shape frames h.1
    have ihrest := exists_shapes frames h.2
    rw [shapes, Shape.ScopedAll]
    simp only [except_bind_eq_ok]
    constructor
    · rintro ⟨_, code, hcode, code', hcode', -⟩
      exact ⟨ih.mp ⟨code, hcode⟩, ihrest.mp ⟨code', hcode'⟩⟩
    · rintro ⟨hx, hrest⟩
      obtain ⟨code, hcode⟩ := ih.mpr hx
      obtain ⟨code', hcode'⟩ := ihrest.mpr hrest
      exact ⟨_, code, hcode, code', hcode', rfl⟩

end

lemma jump_constructs {frames : List Enclosing} {label : Nat} {code : List Instruction}
    (h : jump c frames label = .ok code) : constructsAll code = [] := by
  unfold jump at h
  cases hfound : frames.findIdx? (·.label == some label) with
  | none => simp [hfound] at h
  | some depth =>
    simp only [hfound] at h
    cases h
    split
    · split <;> simp [constructsAll, Instruction.constructs]
    · simp [constructsAll, Instruction.constructs]

lemma jump_references {frames : List Enclosing} {constructs : List Construct} {label : Nat}
    {code : List Instruction} (h : Numbered frames constructs around)
    (hloops : ∀ f ∈ frames, f.isLoop = true → .tick ∈ c.imports)
    (hcode : jump c frames label = .ok code) : referencesAll c.imports around next code =
      ((Shape.br label).references constructs next).map some := by
  unfold jump at hcode
  cases hfound : frames.findIdx? (·.label == some label) with
  | none => simp [hfound] at hcode
  | some depth =>
    obtain ⟨target, htarget, haround, hloop⟩ := h.find hfound
    simp only [hfound, hloop, Option.getD_some] at hcode
    cases hcode
    rw [Shape.references, htarget]
    cases htick : c.imports.findIdx? (· == .tick) with
    | none =>
      -- Without the import there is no loop around.
      have hno : target.isLoop = false := by
        obtain ⟨f, hf, hisLoop⟩ := Option.map_eq_some_iff.mp hloop
        rw [← hisLoop, Bool.eq_false_iff]
        intro htrue
        have hmem := hloops f (List.mem_of_getElem? hf) htrue
        simpa using List.findIdx?_eq_none_iff.mp htick _ hmem
      simp [hno, referencesAll, Instruction.references, haround]
    | some index =>
      obtain ⟨hlt, hi, -⟩ := List.findIdx?_eq_some_iff_getElem.mp htick
      have hindex : c.imports[index]? = some .tick := by
        simpa [List.getElem?_eq_getElem hlt] using hi
      by_cases hisLoop : target.isLoop = true <;>
        simp [hisLoop, referencesAll, Instruction.references, haround, hindex]

/-- Inside some constructs, code has given constructs and refers to what a shape refers to. -/
def Mirrors (c : Context) (frames : List Enclosing) (code : List Instruction) (kinds : List Bool)
    (references : List Construct → Nat → List Reference) : Prop :=
  constructsAll code = kinds ∧ ∀ constructs around, Numbered frames constructs around →
    ∀ next, referencesAll c.imports around next code = (references constructs next).map some

namespace Mirrors

variable {frames : List Enclosing} {code code' first : List Instruction} {kinds kinds' : List Bool}
  {refs refs' : List Construct → Nat → List Reference}

lemma of_arePlain (h : arePlain code = true) : Mirrors c frames code [] fun _ _ => [] :=
  ⟨constructsAll_of_arePlain h, fun _ _ _ _ => referencesAll_of_arePlain h⟩

lemma plain_append (hfirst : arePlain first = true) (h : Mirrors c frames code kinds refs) :
    Mirrors c frames (first ++ code) kinds refs := by
  refine ⟨by simp [constructsAll_of_arePlain hfirst, h.1], fun constructs around hn next => ?_⟩
  simp [constructsAll_of_arePlain hfirst, referencesAll_of_arePlain hfirst, h.2 _ _ hn]

lemma append (h : Mirrors c frames code kinds refs) (h' : Mirrors c frames code' kinds' refs') :
    Mirrors c frames (code ++ code') (kinds ++ kinds') fun constructs next =>
      refs constructs next ++ refs' constructs (next + kinds.length) := by
  refine ⟨by simp [h.1, h'.1], fun constructs around hn next => ?_⟩
  simp [h.1, h.2 _ _ hn, h'.2 _ _ hn]

lemma block {label : Nat} (h : Mirrors c (⟨some label, false⟩ :: frames) code kinds refs) :
    Mirrors c frames [.block code] (false :: kinds) fun constructs next =>
      refs (⟨label, false, next⟩ :: constructs) (next + 1) := by
  refine ⟨by simp [constructsAll, Instruction.constructs, h.1], fun constructs around hn next => ?_⟩
  simp [referencesAll, Instruction.references, h.2 _ _ (hn.construct label false next)]

lemma loop {label : Nat} (h : Mirrors c (⟨some label, true⟩ :: frames) code kinds refs) :
    Mirrors c frames [.loop code] (true :: kinds) fun constructs next =>
      refs (⟨label, true, next⟩ :: constructs) (next + 1) := by
  refine ⟨by simp [constructsAll, Instruction.constructs, h.1], fun constructs around hn next => ?_⟩
  simp [referencesAll, Instruction.references, h.2 _ _ (hn.construct label true next)]

lemma ifThen (h : Mirrors c (⟨none, false⟩ :: frames) code kinds refs) :
    Mirrors c frames [.ifThen code] kinds refs := by
  refine ⟨by simp [constructsAll, Instruction.constructs, h.1], fun constructs around hn next => ?_⟩
  simp [referencesAll, Instruction.references, h.2 _ _ hn.arm]

lemma ifElse {result : Bool} (h : Mirrors c (⟨none, false⟩ :: frames) code kinds refs)
    (h' : Mirrors c (⟨none, false⟩ :: frames) code' kinds' refs') :
    Mirrors c frames [.ifElse result code code'] (kinds ++ kinds') fun constructs next =>
      refs constructs next ++ refs' constructs (next + kinds.length) := by
  refine ⟨by simp [constructsAll, Instruction.constructs, h.1, h'.1],
    fun constructs around hn next => ?_⟩
  simp [referencesAll, Instruction.references, h.1, h.2 _ _ hn.arm, h'.2 _ _ hn.arm]

end Mirrors

mutual

/-- The code of a shape has the constructs of the shape and refers to what the shape refers to. -/
lemma shape_mirrors : {x : Shape (List Op) Operand} → {frames : List Enclosing} →
    {code : List Instruction} → (x.hasLoop = true → .tick ∈ c.imports) →
    (∀ f ∈ frames, f.isLoop = true → .tick ∈ c.imports) → shape c frames x = .ok code →
      Mirrors c frames code x.constructs fun constructs next => x.references constructs next
  | .seq items, frames, code, hloop, hframes, h => by
    rw [shape] at h
    rw [Shape.hasLoop] at hloop
    simp only [Shape.constructs, Shape.references]
    exact shapes_mirrors hloop hframes h
  | .body os, frames, code, hloop, hframes, h => by
    rw [shape] at h
    obtain ⟨hkinds, hrefs⟩ := ops_asks h
    simp only [Shape.constructs, Shape.references]
    exact ⟨hkinds, fun constructs around _ next => by simp [hrefs]⟩
  | .block label inner, frames, code, hloop, hframes, h => by
    obtain ⟨code', hcode, rfl⟩ := block_eq_ok h
    rw [Shape.hasLoop] at hloop
    simp only [Shape.constructs, Shape.references]
    exact (shape_mirrors hloop (by simpa using hframes) hcode).block
  | .loop label inner, frames, code, hloop, hframes, h => by
    obtain ⟨code', hcode, rfl⟩ := loop_eq_ok h
    rw [Shape.hasLoop] at hloop
    have htick := hloop rfl
    simp only [Shape.constructs, Shape.references]
    exact (shape_mirrors (fun _ => htick) (fun _ _ _ => htick) hcode).loop
  | .cond t yes no, frames, code, hloop, hframes, h => by
    obtain ⟨yes', hyes', hno'⟩ := cond_eq_ok h
    rw [Shape.hasLoop, Bool.or_eq_true] at hloop
    have htest := arePlain_test (c := c) t
    have hyes := shape_mirrors (fun hl => hloop (.inl hl)) (by simpa using hframes) hyes'
    rcases hno' with ⟨rfl, rfl⟩ | ⟨no', hno', rfl⟩
    · simp only [Shape.constructs, Shape.references, Shape.constructsAll, Shape.referencesAll,
        List.append_nil]
      exact hyes.ifThen.plain_append htest
    · have hno := shape_mirrors (fun hl => hloop (.inr hl)) (by simpa using hframes) hno'
      simp only [Shape.constructs, Shape.references]
      exact (hyes.ifElse hno).plain_append htest
  | .br label, frames, code, _, hframes, h => by
    rw [shape] at h
    refine ⟨(jump_constructs h).trans (by rw [Shape.constructs]), ?_⟩
    intro constructs around hnumbered next
    exact jump_references hnumbered hframes h
  | .setDispatch id, frames, code, _, _, h => by
    rw [shape] at h
    cases h
    simp only [Shape.constructs, Shape.references]
    exact .of_arePlain rfl

lemma shapes_mirrors : {items : List (Shape (List Op) Operand)} → {frames : List Enclosing} →
    {code : List Instruction} → (Shape.hasLoopList items = true → .tick ∈ c.imports) →
    (∀ f ∈ frames, f.isLoop = true → .tick ∈ c.imports) → shapes c frames items = .ok code →
      Mirrors c frames code (Shape.constructsAll items)
        fun constructs next => Shape.referencesAll constructs next items
  | [], frames, code, _, _, h => by
    rw [shapes] at h
    cases h
    simp only [Shape.constructsAll, Shape.referencesAll]
    exact .of_arePlain rfl
  | x :: rest, frames, code, hloop, hframes, h => by
    obtain ⟨first, rest', hfirst, hrest, rfl⟩ := shapes_cons_eq_ok h
    rw [Shape.hasLoopList, Bool.or_eq_true] at hloop
    simp only [Shape.constructsAll, Shape.referencesAll]
    exact (shape_mirrors (fun hl => hloop (.inl hl)) hframes hfirst).append
      (shapes_mirrors (fun hl => hloop (.inr hl)) hframes hrest)

end

end Codegen

end Dynarec.Wasm
