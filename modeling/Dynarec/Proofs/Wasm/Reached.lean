import Dynarec.Proofs.Wasm.Execution

/-!
# Code that a run comes to

`Reaches` says that running some instructions comes to some code, with the stack and the activation that it
finds there. A run never changes how many locals there are, so the code of a function always finds its own.
-/

namespace Dynarec.Wasm

open Instruction (exec execAll)

variable {ε H α : Type} {env : Environment ε H} {fuel : Nat}

/-! ### Locals -/

/-- An activation has as many locals as another one. -/
def SameLocals (a a' : Activation H) : Prop := a'.locals.size = a.locals.size

instance : Std.Refl (SameLocals (H := H)) := ⟨fun _ => rfl⟩

instance : IsTrans (Activation H) SameLocals := ⟨fun _ _ _ h h' => h'.trans h⟩

/-- A run keeps the number of locals. -/
abbrev KeepsLocals (x : Run (Trap ε) (Activation H) α) : Prop := EStateM.Keeps SameLocals x

lemma keepsLocals_fail (e : Trap ε) : KeepsLocals (Run.fail e : Run (Trap ε) (Activation H) α) :=
  fun _ => rfl

lemma keepsLocals_getLocal (index : Nat) : KeepsLocals (getLocal (ε := ε) (H := H) index) := by
  intro a
  unfold getLocal
  split <;> rfl

lemma keepsLocals_setLocal (index : Nat) (v : Value) :
    KeepsLocals (setLocal (ε := ε) (H := H) index v) := by
  intro a
  unfold setLocal
  split
  · exact Array.size_setIfInBounds
  · rfl

lemma keepsLocals_loadAt (addr : Nat) (size : AccessSize) :
    KeepsLocals (loadAt (ε := ε) (H := H) addr size) := by
  intro a
  unfold loadAt
  split <;> rfl

lemma keepsLocals_storeAt (addr : Nat) (size : AccessSize) (value : UInt64) :
    KeepsLocals (storeAt (ε := ε) (H := H) addr size value) := by
  intro a
  unfold storeAt
  split <;> rfl

lemma keepsLocals_orTrap (o : Option α) : KeepsLocals (orTrap (ε := ε) (H := H) o) := by
  cases o <;> exact fun _ => rfl

lemma keepsLocals_onShared (act : Run ε (Instance H) α) : KeepsLocals (onShared act) := by
  rintro ⟨locals, shared⟩
  simp only [onShared]
  cases act shared with
  | ok r shared => rfl
  | error e shared => cases e <;> rfl

lemma keepsLocals_callImport (h : Imported ε H) (i : Import) (s : List Value) :
    KeepsLocals (callImport h i s) := by
  unfold callImport
  split
  · exact (keepsLocals_onShared _).bind fun _ => EStateM.keeps_pure _
  · exact (keepsLocals_onShared _).bind fun _ => EStateM.keeps_pure _
  · exact (keepsLocals_onShared _).bind fun _ => EStateM.keeps_pure _
  · exact keepsLocals_fail _

lemma keepsLocals_step (env : Environment ε H) (i : Instruction) (s : List Value) :
    KeepsLocals (Instruction.step env i s) := by
  unfold Instruction.step
  split
  · split
    · exact keepsLocals_callImport _ _ _
    · exact keepsLocals_fail _
  · exact EStateM.keeps_pure _
  · exact EStateM.keeps_pure _
  · exact (keepsLocals_getLocal _).bind fun _ => EStateM.keeps_pure _
  · exact (keepsLocals_setLocal _ _).bind fun _ => EStateM.keeps_pure _
  · exact (keepsLocals_loadAt _ _).bind fun _ => EStateM.keeps_pure _
  · exact (keepsLocals_storeAt _ _ _).bind fun _ => EStateM.keeps_pure _
  -- constants and comparisons
  iterate 5 exact EStateM.keeps_pure _
  · exact (keepsLocals_orTrap _).bind fun _ => EStateM.keeps_pure _
  · exact (keepsLocals_orTrap _).bind fun _ => EStateM.keeps_pure _
  -- conversions
  iterate 2 exact EStateM.keeps_pure _
  · exact keepsLocals_fail _

lemma keepsLocals_again {inner : Run (Trap ε) (Activation H) Control} (h : KeepsLocals inner)
    (fuel : Nat) : KeepsLocals (Instruction.again inner fuel) := by
  induction fuel with
  | zero => exact fun _ => rfl
  | succ fuel ih =>
    refine h.bind fun left => ?_
    split
    · exact ih
    · exact EStateM.keeps_pure _

mutual

lemma keepsLocals_exec (env : Environment ε H) (fuel : Nat) :
    (i : Instruction) → (s : List Value) → KeepsLocals (exec env fuel i s)
  | .unreachable, _ => keepsLocals_fail _
  | .block inner, s => by
    rw [exec]
    exact (keepsLocals_execAll env fuel inner []).bind fun _ => EStateM.keeps_pure _
  | .loop inner, s => by
    rw [exec]
    exact (keepsLocals_again (keepsLocals_execAll env fuel inner []) fuel).bind fun _ =>
      EStateM.keeps_pure _
  | .ifThen ifTrue, .i32 c :: s => by
    rw [exec]
    split
    · exact (keepsLocals_execAll env fuel ifTrue []).bind fun _ => EStateM.keeps_pure _
    · exact EStateM.keeps_pure _
  | .ifElse result ifTrue ifFalse, .i32 c :: s => by
    rw [exec]
    split
    · exact (keepsLocals_execAll env fuel ifTrue []).bind fun _ => EStateM.keeps_pure _
    · exact (keepsLocals_execAll env fuel ifFalse []).bind fun _ => EStateM.keeps_pure _
  | .br depth, s => EStateM.keeps_pure _
  | .ret, s => EStateM.keeps_pure _
  -- a conditional without a truth value is stuck like any step that does not find its arguments
  | .ifThen _, [] | .ifThen _, .i64 _ :: _ | .ifElse .., [] | .ifElse .., .i64 _ :: _
  | .call _, _ | .drop, _ | .select, _ | .localGet _, _ | .localSet _, _ | .load .., _ | .store .., _
  | .i32Const _, _ | .i64Const _, _ | .eqz64, _ | .rel .., _ | .bin .., _ | .wrap, _ | .extendU, _ =>
    (keepsLocals_step env _ _).bind fun _ => EStateM.keeps_pure _

lemma keepsLocals_execAll (env : Environment ε H) (fuel : Nat) :
    (is : List Instruction) → (s : List Value) → KeepsLocals (execAll env fuel is s)
  | [], s => EStateM.keeps_pure _
  | i :: rest, s => by
    rw [execAll]
    refine (keepsLocals_exec env fuel i s).bind fun left => ?_
    split
    · exact keepsLocals_execAll env fuel rest _
    · exact EStateM.keeps_pure _

end

/-! ### Reached code -/

/-- Running some instructions on a stack in an activation comes to some code, on the stack and in the
activation that it finds there. -/
inductive Reaches (env : Environment ε H) (fuel : Nat) (code : List Instruction) :
    List Instruction → List Value → Activation H → List Value → Activation H → Prop where
  | here (after : List Instruction) (s : List Value) (a : Activation H) :
    Reaches env fuel code (code ++ after) s a s a
  | next {i : Instruction} {rest : List Instruction} {s s₁ s₂ : List Value} {a a₁ a₂ : Activation H} :
    exec env fuel i s a = .ok (.next s₁) a₁ → Reaches env fuel code rest s₁ a₁ s₂ a₂ →
    Reaches env fuel code (i :: rest) s a s₂ a₂
  | block {inner rest : List Instruction} {s s₂ : List Value} {a a₂ : Activation H} :
    Reaches env fuel code inner [] a s₂ a₂ → Reaches env fuel code (.block inner :: rest) s a s₂ a₂
  | loop {inner rest : List Instruction} {s s₂ : List Value} {a a₂ : Activation H} :
    Reaches env fuel code inner [] a s₂ a₂ → Reaches env fuel code (.loop inner :: rest) s a s₂ a₂
  | again {inner rest : List Instruction} {s s₁ s₂ : List Value} {a a₁ a₂ : Activation H} :
    execAll env fuel inner [] a = .ok (.br 0 s₁) a₁ →
    Reaches env fuel code (.loop inner :: rest) s a₁ s₂ a₂ →
    Reaches env fuel code (.loop inner :: rest) s a s₂ a₂
  | ifThen {ifTrue rest : List Instruction} {c : UInt32} {s s₂ : List Value} {a a₂ : Activation H} :
    c ≠ 0 → Reaches env fuel code ifTrue [] a s₂ a₂ →
    Reaches env fuel code (.ifThen ifTrue :: rest) (.i32 c :: s) a s₂ a₂
  | ifElse {result : Bool} {ifTrue ifFalse rest : List Instruction} {c : UInt32} {s s₂ : List Value}
      {a a₂ : Activation H} :
    Reaches env fuel code (if c ≠ 0 then ifTrue else ifFalse) [] a s₂ a₂ →
    Reaches env fuel code (.ifElse result ifTrue ifFalse :: rest) (.i32 c :: s) a s₂ a₂

/-- The activation of the function of a module that runs on an address of the register image. -/
def Module.start (m : Module) (image : UInt32) (shared : Instance H) : Activation H :=
  ⟨(.i32 image :: m.localGroups.flatMap fun (count, t) => List.replicate count t.zero).toArray, shared⟩

lemma Module.size_start (m : Module) (image : UInt32) (shared : Instance H) :
    (m.start image shared).locals.size = m.longLocals + 2 := by
  simp [start, localGroups]

/-- Code finds as many locals as there are at the start. -/
lemma Reaches.sameLocals {code is : List Instruction} {s s₂ : List Value} {a a₂ : Activation H}
    (h : Reaches env fuel code is s a s₂ a₂) : SameLocals a a₂ := by
  induction h with
  | here => rfl
  | next hi _ ih => exact ih.trans ((keepsLocals_exec env fuel _ _).of_ok hi)
  | again hinner _ ih => exact ih.trans ((keepsLocals_execAll env fuel _ _).of_ok hinner)
  | block _ ih | loop _ ih | ifThen _ _ ih | ifElse _ ih => exact ih

end Dynarec.Wasm
