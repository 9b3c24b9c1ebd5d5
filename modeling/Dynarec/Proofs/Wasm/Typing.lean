import Dynarec.Proofs.Wasm.References
import Dynarec.Proofs.Wasm.Validation

/-!
# Types of emitted code

The code of an operation or of a shape leaves the stack as it found it. Pushing an operand adds a
64-bit value and writing a place takes one away.
-/

namespace Dynarec.Wasm

/-- The type of an imported function. -/
def Import.type : Import → FunctionType
  | .callSlot => ([.i32, .i32], [.i64])
  | .jumpToPc => ([.i32, .i64], [.i64])
  | .tick => ([.i32], [])

/-- A scope has the locals and functions that emitted code uses, at the indices it uses. -/
structure Suits (c : Context) (Γ : Scope) : Prop where
  image : Γ.locals[Context.imageLocal]? = some .i32
  long : ∀ i < c.longLocals, Γ.locals[1 + i]? = some .i64
  dispatch : Γ.locals[c.dispatchLocal]? = some .i32
  imported : ∀ (index : Nat) (i : Import), c.imports[index]? = some i → Γ.functions[index]? = some i.type
  results : Γ.results = [.i64]

lemma Suits.withLabels {c : Context} {Γ : Scope} (h : Suits c Γ) (labels : List (List ValType)) :
    Suits c { Γ with labels := labels } :=
  ⟨h.image, h.long, h.dispatch, h.imported, h.results⟩

namespace Codegen

open Ir (Op Operand Place)
open Instruction (Typed AllTyped)

variable {c : Context} {Γ : Scope} {s u : List ValType} {width : Width}

lemma cut_typed : AllTyped Γ (cut width) (.i64 :: s) (.i64 :: s) := by
  cases width with
  | w32 => exact .cons .i64Const (.single .bin)
  | w64 => exact .nil

lemma narrow_typed : AllTyped Γ (narrow width) (.i64 :: s) (.ofWidth width :: s) := by
  cases width with
  | w32 => exact .single .wrap
  | w64 => exact .nil

lemma widen_typed : AllTyped Γ (widen width) (.ofWidth width :: s) (.i64 :: s) := by
  cases width with
  | w32 => exact .single .extendU
  | w64 => exact .nil

lemma mask_typed {value : UInt64} : AllTyped Γ (mask value) (.i64 :: s) (.i64 :: s) :=
  .cons .i64Const (.single .bin)

lemma load_typed {size : AccessSize} {offset : Nat} (h : offset < 2 ^ 32) :
    Typed Γ (.load size offset) (.i32 :: s) (.i64 :: s) :=
  .load (by cases size <;> decide) h

lemma store_typed {size : AccessSize} {offset : Nat} (h : offset < 2 ^ 32) :
    Typed Γ (.store size offset) (.i64 :: .i32 :: s) s :=
  .store (by cases size <;> decide) h

lemma isNonzero_typed :
    AllTyped Γ [.i64Const 0, .rel .w64 .ne] (.i64 :: s) (.i32 :: s) :=
  .cons .i64Const (.single .rel)

lemma imageWord_typed (h : Suits c Γ) {offset : Nat} (ho : offset < 2 ^ 32) :
    AllTyped Γ (imageWord offset) s (.i64 :: s) :=
  .cons (.localGet h.image) (.single (load_typed ho))

lemma indexAddress_typed (h : Suits c Γ) : AllTyped Γ indexAddress (.i64 :: s) (.i32 :: s) :=
  .cons .wrap <| .cons .i32Const <| .cons .bin <| .cons (.localGet h.image) <| .single .bin

lemma selectedSpAddress_typed (h : Suits c Γ) :
    AllTyped Γ selectedSpAddress s (.i32 :: s) :=
  ((imageWord_typed h (by decide)).append (imageWord_typed h (by decide))).append
    (.cons .bin (indexAddress_typed h))

lemma currentBankAddress_typed (h : Suits c Γ) :
    AllTyped Γ currentBankAddress s (.i32 :: s) := by
  have hlevel : AllTyped Γ (imageWord Cpu.State.elOffset ++ imageWord Cpu.State.elOffset) s
      (.i64 :: .i64 :: s) :=
    (imageWord_typed h (by decide)).append (imageWord_typed h (by decide))
  have hindex : AllTyped Γ [.i64Const 0, .rel .w64 .ne, .extendU, .bin .w64 .sub]
      (.i64 :: .i64 :: s) (.i64 :: s) :=
    isNonzero_typed.append (.cons .extendU (.single .bin))
  exact (hlevel.append hindex).append (indexAddress_typed h)

lemma fixedOffset_lt {p : Place} (hp : ∀ n, p ≠ .x n) : fixedOffset p < 2 ^ 32 := by
  unfold fixedOffset
  split
  case h_1 n => exact absurd rfl (hp n)
  case h_2 el => simp only [Cpu.State.spElBase, Cpu.State.xBase]; omega
  case h_3 f => cases f <;> decide
  case h_7 el | h_8 el =>
    have := (Cpu.bankIndex el).isLt
    simp only [Cpu.State.spsrBase, Cpu.State.elrBase, Cpu.State.spElBase, Cpu.State.xBase]
    omega
  case h_9 slot =>
    have : slot.val < 20 := slot.isLt
    simp only [Cpu.State.sysOffset, Cpu.State.sysBase, Cpu.State.daifOffset,
      Cpu.State.spselOffset, Cpu.State.elOffset, Cpu.State.flagsBase, Cpu.State.spsrBase,
      Cpu.State.elrBase, Cpu.State.spElBase, Cpu.State.xBase]
    omega
  all_goals decide

lemma xOffset_lt {n : Nat} (h : ¬31 ≤ n) : Cpu.State.xOffset n < 2 ^ 32 := by
  simp only [Cpu.State.xOffset, Cpu.State.xBase]
  omega

lemma valueLocal_typed (h : Suits c Γ) {l : Ir.Local} (hl : l.id < c.types.size) :
    Γ.locals[Context.valueLocal l]? = some .i64 :=
  h.long l.id (by simp only [Context.longLocals]; omega)

lemma spareLocal_typed (h : Suits c Γ) : Γ.locals[c.spareLocal]? = some .i64 :=
  h.long c.types.size (by simp only [Context.longLocals]; omega)

lemma lhsLocal_typed (h : Suits c Γ) : Γ.locals[c.lhsLocal]? = some .i64 := by
  rw [Context.lhsLocal, Context.spareLocal, Nat.add_assoc]
  exact h.long _ (by simp only [Context.longLocals]; omega)

lemma rhsLocal_typed (h : Suits c Γ) : Γ.locals[c.rhsLocal]? = some .i64 := by
  rw [Context.rhsLocal, Context.spareLocal, Nat.add_assoc]
  exact h.long _ (by simp only [Context.longLocals]; omega)

lemma readPlace_typed (h : Suits c Γ) {p : Place} (hp : p.Declared c.types.size) :
    AllTyped Γ (readPlace p) s (.i64 :: s) := by
  unfold readPlace
  split
  · exact .single (.localGet (valueLocal_typed h hp))
  · exact (selectedSpAddress_typed h).append (.single (load_typed (by decide)))
  · exact (currentBankAddress_typed h).append (.single (load_typed (by decide)))
  · exact (currentBankAddress_typed h).append (.single (load_typed (by decide)))
  · split
    · exact .single .i64Const
    · exact imageWord_typed h (xOffset_lt ‹_›)
  · exact imageWord_typed h (fixedOffset_lt ‹_›)

lemma readOperand_typed (h : Suits c Γ) {x : Operand} (hx : x.Declared c.types.size) :
    AllTyped Γ (readOperand x) s (.i64 :: s) := by
  cases x with
  | imm value => exact .single .i64Const
  | place p => exact readPlace_typed h hx

lemma normalize_typed {p : Place} : AllTyped Γ (normalize p) (.i64 :: s) (.i64 :: s) := by
  unfold normalize
  split
  · exact isNonzero_typed.append (.single .extendU)
  · exact mask_typed
  · exact mask_typed
  · exact mask_typed
  · exact .nil

lemma writeAt_typed (h : Suits c Γ) {address adjust : List Instruction} {offset : Nat}
    (haddress : AllTyped Γ address s (.i32 :: s))
    (hadjust : AllTyped Γ adjust (.i64 :: .i32 :: s) (.i64 :: .i32 :: s))
    (ho : offset < 2 ^ 32) : AllTyped Γ (writeAt c address adjust offset) (.i64 :: s) s := by
  have hspare := spareLocal_typed h
  have hvalue : AllTyped Γ (.localGet c.spareLocal :: adjust) (.i32 :: s) (.i64 :: .i32 :: s) :=
    .cons (.localGet hspare) hadjust
  have hstore : Typed Γ (.store .double offset) (.i64 :: .i32 :: s) s := store_typed ho
  exact .cons (.localSet hspare) ((haddress.append hvalue).append (.single hstore))

lemma writePlace_typed (h : Suits c Γ) {p : Place} (hp : p.Declared c.types.size) :
    AllTyped Γ (writePlace c p) (.i64 :: s) s := by
  have himage : AllTyped Γ [.localGet Context.imageLocal] s (.i32 :: s) :=
    .single (.localGet h.image)
  unfold writePlace
  split
  · apply AllTyped.append (t := .i64 :: s)
    · split
      · exact cut_typed
      · exact .nil
    · exact .single (.localSet (valueLocal_typed h hp))
  · exact writeAt_typed h (selectedSpAddress_typed h) .nil (by decide)
  · exact writeAt_typed h (currentBankAddress_typed h) .nil (by decide)
  · exact writeAt_typed h (currentBankAddress_typed h) .nil (by decide)
  · split
    · exact .single .drop
    · exact writeAt_typed h himage .nil (xOffset_lt ‹_›)
  · exact writeAt_typed h himage normalize_typed (fixedOffset_lt ‹_›)

lemma truthy_typed (h : Suits c Γ) {x : Operand} (hx : x.Declared c.types.size) :
    AllTyped Γ (truthy x) s (.i32 :: s) :=
  (readOperand_typed h hx).append isNonzero_typed

lemma readNarrow_typed (h : Suits c Γ) {x : Operand} (hx : x.Declared c.types.size) :
    AllTyped Γ (readNarrow x width) s (.ofWidth width :: s) :=
  (readOperand_typed h hx).append narrow_typed

lemma divideKept_typed (h : Suits c Γ) {op : BinOp} :
    AllTyped Γ (divideKept c op width) s (.i64 :: s) := by
  have hlhs : AllTyped Γ (.localGet c.lhsLocal :: narrow width) s (.ofWidth width :: s) :=
    .cons (.localGet (lhsLocal_typed h)) narrow_typed
  have hrhs : AllTyped Γ (.localGet c.rhsLocal :: narrow width) (.ofWidth width :: s)
      (.ofWidth width :: .ofWidth width :: s) :=
    .cons (.localGet (rhsLocal_typed h)) narrow_typed
  exact (hlhs.append hrhs).append (.cons .bin widen_typed)

lemma divide_typed (h : Suits c Γ) {signed : Bool} {lhs rhs : Operand}
    (hlhs : lhs.Declared c.types.size) (hrhs : rhs.Declared c.types.size) :
    AllTyped Γ (divide c signed width lhs rhs) s (.i64 :: s) := by
  have hleft : AllTyped Γ (readOperand lhs ++ cut width) s (.i64 :: s) :=
    (readOperand_typed h hlhs).append cut_typed
  have hright : AllTyped Γ (.localSet c.lhsLocal :: readOperand rhs) (.i64 :: s) (.i64 :: s) :=
    .cons (.localSet (lhsLocal_typed h)) (readOperand_typed h hrhs)
  have hquotient : ∀ {Δ : Scope}, Suits c Δ → AllTyped Δ
      (if signed then
        [.localGet c.rhsLocal, .i64Const width.mask, .rel .w64 .eq,
          .ifElse true
            ([.i64Const 0, .localGet c.lhsLocal, .bin .w64 .sub] ++ cut width)
            (divideKept c .divS width)]
      else divideKept c .divU width) [] [.i64] := by
    intro Δ hΔ
    split
    · have hnegate : AllTyped { Δ with labels := [.i64] :: Δ.labels }
          ([.i64Const 0, .localGet c.lhsLocal, .bin .w64 .sub] ++ cut width) [] [.i64] :=
        .cons .i64Const <| .cons (.localGet (lhsLocal_typed (hΔ.withLabels _))) <|
          .cons .bin cut_typed
      exact .cons (.localGet (rhsLocal_typed hΔ)) <| .cons .i64Const <| .cons .rel <|
        .single (.ifElseValue hnegate (divideKept_typed (hΔ.withLabels _)))
    · exact divideKept_typed hΔ
  refine ((hleft.append hright).append cut_typed).append ?_
  exact .cons (.localSet (rhsLocal_typed h)) <| .cons (.localGet (rhsLocal_typed h)) <|
    .cons .eqz64 <| .single (.ifElseValue (.single .i64Const) (hquotient (h.withLabels _)))

lemma binary_typed (h : Suits c Γ) {op : Ir.BinOp} {lhs rhs : Operand}
    (hlhs : lhs.Declared c.types.size) (hrhs : rhs.Declared c.types.size) :
    AllTyped Γ (binary c op width lhs rhs) s (.i64 :: s) := by
  unfold binary
  split
  · exact divide_typed h hlhs hrhs
  · exact divide_typed h hlhs hrhs
  · exact ((readNarrow_typed h hlhs).append (readNarrow_typed h hrhs)).append
      (.cons .bin widen_typed)

lemma guestAddress_typed (h : Suits c Γ) {addr : Operand} {size : AccessSize}
    (haddr : addr.Declared c.types.size) :
    AllTyped Γ (guestAddress c addr size) s (.i32 :: s) := by
  have hkept := lhsLocal_typed h
  have haddress : AllTyped Γ [.localGet c.lhsLocal, .wrap] s (.i32 :: s) :=
    .cons (.localGet hkept) (.single .wrap)
  unfold guestAddress
  refine ((readOperand_typed h haddr).append (.cons (.localSet hkept) (t := s) ?_)).append haddress
  split
  · exact .nil
  · split
    · exact .cons (.localGet hkept) <| .cons .i64Const <| .cons .rel <|
        .single (.ifThen (.single .unreachable))
    · exact .single .unreachable

lemma extend_typed {bits : Nat} {signed : Bool} :
    AllTyped Γ (extend bits signed) (.i64 :: s) (.i64 :: s) := by
  unfold extend
  split
  · exact .nil
  · split
    · exact .cons .i64Const <| .cons .bin <| .cons .i64Const <| .single .bin
    · exact mask_typed

lemma call_typed (h : Suits c Γ) {i : Import} {index : Nat} (hindex : c.importIndex i = .ok index) :
    Typed Γ (.call index) (i.type.1.reverse ++ s) (i.type.2.reverse ++ s) :=
  .call (h.imported index i (importIndex_eq_ok hindex))

mutual

lemma op_typed {c : Context} : {o : Op} → {Γ : Scope} → {s : List ValType} →
    {code : List Instruction} → Suits c Γ → o.Declared c.types.size → op c o = .ok code →
    AllTyped Γ code s s
  | .mov width dst src, Γ, s, code, h, ho, hcode => by
    rw [Op.Declared] at ho
    rw [op] at hcode
    cases hcode
    exact ((readOperand_typed h ho.2).append cut_typed).append (writePlace_typed h ho.1)
  | .bin op' width dst lhs rhs, Γ, s, code, h, ho, hcode => by
    rw [Op.Declared] at ho
    rw [op] at hcode
    cases hcode
    exact (binary_typed h ho.2.1 ho.2.2).append (writePlace_typed h ho.1)
  | .cmp op' width dst lhs rhs, Γ, s, code, h, ho, hcode => by
    rw [Op.Declared] at ho
    rw [op] at hcode
    cases hcode
    have hoperands : AllTyped Γ (readNarrow lhs width ++ readNarrow rhs width) s
        (.ofWidth width :: .ofWidth width :: s) :=
      (readNarrow_typed h ho.2.1).append (readNarrow_typed h ho.2.2)
    exact (hoperands.append (.cons .rel (.single .extendU))).append (writePlace_typed h ho.1)
  | .select dst cond yes no, Γ, s, code, h, ho, hcode => by
    rw [Op.Declared] at ho
    rw [op] at hcode
    cases hcode
    have hoperands := (readOperand_typed (s := s) h ho.2.2.1).append
      (readOperand_typed h ho.2.2.2)
    exact (hoperands.append (truthy_typed h ho.2.1)).append
      (.cons .select (writePlace_typed h ho.1))
  | .extend bits signed dst src, Γ, s, code, h, ho, hcode => by
    rw [Op.Declared] at ho
    rw [op] at hcode
    cases hcode
    exact ((readOperand_typed h ho.2).append extend_typed).append (writePlace_typed h ho.1)
  | .load size dst addr, Γ, s, code, h, ho, hcode => by
    rw [Op.Declared] at ho
    rw [op] at hcode
    cases hcode
    exact (guestAddress_typed h ho.2).append
      (.cons (load_typed (by decide)) (writePlace_typed h ho.1))
  | .store size addr value, Γ, s, code, h, ho, hcode => by
    rw [Op.Declared] at ho
    rw [op] at hcode
    cases hcode
    exact ((guestAddress_typed h ho.1).append (readOperand_typed h ho.2)).append
      (.single (store_typed (by decide)))
  | .call dst slot, Γ, s, code, h, ho, hcode => by
    rw [Op.Declared] at ho
    rw [op] at hcode
    obtain ⟨callee, hcallee, hcode⟩ := except_bind_eq_ok.mp hcode
    cases hcode
    exact .cons .i32Const <| .cons (.localGet h.image) <| .cons (call_typed h hcallee) <|
      writePlace_typed h ho
  | .jump dst target, Γ, s, code, h, ho, hcode => by
    rw [Op.Declared] at ho
    rw [op] at hcode
    obtain ⟨callee, hcallee, hcode⟩ := except_bind_eq_ok.mp hcode
    cases hcode
    exact .cons (.localGet h.image) <| (readOperand_typed h ho.2).append <|
      .cons (call_typed h hcallee) (writePlace_typed h ho.1)
  | .branch cond yes no, Γ, s, code, h, ho, hcode => by
    rw [Op.Declared] at ho
    obtain ⟨yes', hyes, ⟨-, rfl⟩ | ⟨no', hno, rfl⟩⟩ := branch_eq_ok hcode
    · exact (truthy_typed h ho.1).append (.single (.ifThen (ops_typed (h.withLabels _) ho.2.1 hyes)))
    · exact (truthy_typed h ho.1).append
        (.single (.ifElse (ops_typed (h.withLabels _) ho.2.1 hyes)
          (ops_typed (h.withLabels _) ho.2.2 hno)))
  | .ret value, Γ, s, code, h, ho, hcode => by
    rw [Op.Declared] at ho
    rw [op] at hcode
    cases hcode
    have hret : Typed Γ .ret (.i64 :: s) s := by
      have : Typed Γ .ret (Γ.results ++ s) s := .ret
      rwa [h.results] at this
    exact (readOperand_typed h ho).append (.single hret)

lemma ops_typed {c : Context} : {os : List Op} → {Γ : Scope} → {s : List ValType} →
    {code : List Instruction} → Suits c Γ → Op.AllDeclared c.types.size os →
    ops c os = .ok code → AllTyped Γ code s s
  | [], Γ, s, code, _, _, hcode => by
    rw [ops] at hcode
    cases hcode
    exact .nil
  | o :: rest, Γ, s, code, h, ho, hcode => by
    rw [Op.AllDeclared] at ho
    obtain ⟨first, rest', hfirst, hrest, rfl⟩ := ops_cons_eq_ok hcode
    exact (op_typed h ho.1 hfirst).append (ops_typed h ho.2 hrest)

end

lemma test_typed (h : Suits c Γ) {t : Test Operand}
    (ht : ∀ x, t = .cond x → x.Declared c.types.size) :
    AllTyped Γ (test c t) s (.i32 :: s) := by
  cases t with
  | cond x => exact truthy_typed h (ht x rfl)
  | dispatchIs id => exact .cons (.localGet h.dispatch) <| .cons .i32Const <| .single .rel

lemma jump_typed (h : Suits c Γ) {frames : List Enclosing} {label : Nat}
    {code : List Instruction}
    (hlabels : ∀ depth < frames.length, Γ.labels[depth]? = some [])
    (hcode : jump c frames label = .ok code) : AllTyped Γ code s u := by
  unfold jump at hcode
  cases hfound : frames.findIdx? (·.label == some label) with
  | none => simp [hfound] at hcode
  | some depth =>
    obtain ⟨hlt, -⟩ := List.findIdx?_eq_some_iff_getElem.mp hfound
    have htyped : Typed Γ (.br depth) ([] ++ s) u := .br (hlabels depth hlt)
    have hbr : AllTyped Γ [.br depth] s u := .single htyped
    simp only [hfound] at hcode
    cases hcode
    split
    next index htick =>
      obtain ⟨hlt, hi, -⟩ := List.findIdx?_eq_some_iff_getElem.mp htick
      have hindex : c.imports[index]? = some .tick := by
        simpa [List.getElem?_eq_getElem hlt] using hi
      split
      · exact .cons (.localGet h.image) <| .cons (.call (h.imported _ _ hindex)) hbr
      · exact hbr
    · exact hbr

/-- The constructs around a place take nothing from a branch. -/
abbrev Empty (Γ : Scope) (frames : List Enclosing) : Prop :=
  ∀ depth < frames.length, Γ.labels[depth]? = some []

lemma Empty.enter {frames : List Enclosing} (h : Empty Γ frames) (frame : Enclosing) :
    Empty Γ.enter (frame :: frames) := by
  intro depth hdepth
  cases depth with
  | zero => rfl
  | succ depth => exact h depth (Nat.lt_of_succ_lt_succ hdepth)

mutual

lemma shape_typed {c : Context} : {x : Shape (List Op) Operand} → {Γ : Scope} →
    {frames : List Enclosing} → {code : List Instruction} → Suits c Γ → Empty Γ frames →
    x.All (Op.AllDeclared c.types.size) (Operand.Declared c.types.size) →
    shape c frames x = .ok code → AllTyped Γ code [] []
  | .seq items, Γ, frames, code, h, hempty, hx, hcode => by
    rw [Shape.All] at hx
    rw [shape] at hcode
    exact shapes_typed h hempty hx hcode
  | .body os, Γ, frames, code, h, _, hx, hcode => by
    rw [Shape.All] at hx
    rw [shape] at hcode
    exact ops_typed h hx hcode
  | .block label inner, Γ, frames, code, h, hempty, hx, hcode => by
    rw [Shape.All] at hx
    obtain ⟨inner', hinner, rfl⟩ := block_eq_ok hcode
    exact .single (.block (shape_typed (h.withLabels _) (hempty.enter _) hx hinner))
  | .loop label inner, Γ, frames, code, h, hempty, hx, hcode => by
    rw [Shape.All] at hx
    obtain ⟨inner', hinner, rfl⟩ := loop_eq_ok hcode
    exact .single (.loop (shape_typed (h.withLabels _) (hempty.enter _) hx hinner))
  | .cond t yes no, Γ, frames, code, h, hempty, hx, hcode => by
    obtain ⟨ht, hyes, hno⟩ := hx.of_cond
    obtain ⟨yes', hyes', hno'⟩ := cond_eq_ok hcode
    have ihyes := shape_typed (h.withLabels _) (hempty.enter _) hyes hyes'
    rcases hno' with ⟨-, rfl⟩ | ⟨no', hno', rfl⟩
    · exact (test_typed h ht).append (.single (.ifThen ihyes))
    · have ihno := shape_typed (h.withLabels _) (hempty.enter _) hno hno'
      exact (test_typed h ht).append (.single (.ifElse ihyes ihno))
  | .br label, Γ, frames, code, h, hempty, _, hcode => by
    rw [shape] at hcode
    exact jump_typed h hempty hcode
  | .setDispatch id, Γ, frames, code, h, _, _, hcode => by
    rw [shape] at hcode
    cases hcode
    exact .cons .i32Const (.single (.localSet h.dispatch))

lemma shapes_typed {c : Context} : {items : List (Shape (List Op) Operand)} → {Γ : Scope} →
    {frames : List Enclosing} → {code : List Instruction} → Suits c Γ → Empty Γ frames →
    Shape.AllOf (Op.AllDeclared c.types.size) (Operand.Declared c.types.size) items →
    shapes c frames items = .ok code → AllTyped Γ code [] []
  | [], Γ, frames, code, _, _, _, hcode => by
    rw [shapes] at hcode
    cases hcode
    exact .nil
  | x :: rest, Γ, frames, code, h, hempty, hx, hcode => by
    rw [Shape.AllOf] at hx
    obtain ⟨first, rest', hfirst, hrest, rfl⟩ := shapes_cons_eq_ok hcode
    exact (shape_typed h hempty hx.1 hfirst).append (shapes_typed h hempty hx.2 hrest)

end

end Codegen

end Dynarec.Wasm
