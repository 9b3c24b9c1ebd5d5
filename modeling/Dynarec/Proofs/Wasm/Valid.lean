import Dynarec.Proofs.Wasm.Typing

/-!
# Emitted modules are valid

A module is made of every function whose jumps all lead to a construct around them, for memory
limits in order. It is then valid, imports what the function asks for and nothing else, and refers
to the host functions and constructs that the function names.
-/

namespace Dynarec.Wasm

open Ir (Op Operand)
open Instruction (constructsAll referencesAll)

/-- The limits of the memory are in order. -/
def Options.Limited (o : Options) : Prop :=
  o.memoryMin ≤ Options.maxPages ∧
    ∀ max, o.memoryMax = some max → o.memoryMin ≤ max ∧ max ≤ Options.maxPages

lemma Options.validate_ok_iff (o : Options) : o.validate = .ok () ↔ o.Limited := by
  unfold validate Limited
  by_cases hmin : maxPages < o.memoryMin
  · rw [if_pos hmin]
    exact ⟨nofun, fun h => absurd h.1 (Nat.not_le.mpr hmin)⟩
  · rw [if_neg hmin]
    cases o.memoryMax with
    | none => exact ⟨fun _ => ⟨Nat.not_lt.mp hmin, nofun⟩, fun _ => rfl⟩
    | some max =>
      simp only [Option.some.injEq, forall_eq']
      constructor
      · intro h
        have : ¬(maxPages < max ∨ max < o.memoryMin) := fun hbad => by
          rw [if_pos hbad] at h
          cases h
        omega
      · rintro ⟨-, hle, hmax⟩
        rw [if_neg (by omega)]
        rfl

mutual

lemma any_of_mem_hosts {i : Import} : {o : Op} → i ∈ o.hosts →
    (i = .callSlot ∧ o.any Op.isCall = true) ∨ (i = .jumpToPc ∧ o.any Op.isJump = true)
  | .call dst slot, h => by
    rw [Op.hosts, List.mem_singleton] at h
    exact .inl ⟨h, rfl⟩
  | .jump dst target, h => by
    rw [Op.hosts, List.mem_singleton] at h
    exact .inr ⟨h, rfl⟩
  | .branch cond yes no, h => by
    simp only [Op.any, Bool.or_eq_true]
    rw [Op.hosts, List.mem_append] at h
    rcases h with h | h
    · rcases anyOf_of_mem_hostsOf h with ⟨hi, h⟩ | ⟨hi, h⟩
      · exact .inl ⟨hi, .inl (.inr h)⟩
      · exact .inr ⟨hi, .inl (.inr h)⟩
    · rcases anyOf_of_mem_hostsOf h with ⟨hi, h⟩ | ⟨hi, h⟩
      · exact .inl ⟨hi, .inr h⟩
      · exact .inr ⟨hi, .inr h⟩
  | .mov .., h | .bin .., h | .cmp .., h | .select .., h | .extend .., h | .load .., h
  | .store .., h | .ret _, h => by simp [Op.hosts] at h

lemma anyOf_of_mem_hostsOf {i : Import} : {os : List Op} → i ∈ Op.hostsOf os →
    (i = .callSlot ∧ Op.anyOf Op.isCall os = true) ∨ (i = .jumpToPc ∧ Op.anyOf Op.isJump os = true)
  | [], h => by simp [Op.hostsOf] at h
  | o :: rest, h => by
    simp only [Op.anyOf, Bool.or_eq_true]
    rw [Op.hostsOf, List.mem_append] at h
    rcases h with h | h
    · rcases any_of_mem_hosts h with ⟨hi, h⟩ | ⟨hi, h⟩
      · exact .inl ⟨hi, .inl h⟩
      · exact .inr ⟨hi, .inl h⟩
    · rcases anyOf_of_mem_hostsOf h with ⟨hi, h⟩ | ⟨hi, h⟩
      · exact .inl ⟨hi, .inr h⟩
      · exact .inr ⟨hi, .inr h⟩

end

section Imports

variable {f : Ir.Function}

lemma any_iff {p : Op → Bool} : f.any p = true ↔
    ∃ os o, (Shape.body os).Within f.body ∧ o.Within os ∧ p o = true := by
  simp only [Ir.Function.any, List.any_eq_true, Shape.mem_bodies_iff, Op.anyOf_iff]
  constructor
  · rintro ⟨os, hos, o, ho, h⟩
    exact ⟨os, o, hos, ho, h⟩
  · rintro ⟨os, o, hos, ho, h⟩
    exact ⟨os, hos, o, ho, h⟩

lemma callSlot_mem_importsOf : .callSlot ∈ importsOf f ↔
    ∃ os dst slot, (Shape.body os).Within f.body ∧ (Op.call dst slot).Within os := by
  have hmem : .callSlot ∈ importsOf f ↔ f.any Op.isCall = true := by
    unfold importsOf
    split_ifs <;> simp_all
  rw [hmem, any_iff]
  constructor
  · rintro ⟨os, o, hos, ho, h⟩
    cases o with
    | call dst slot => exact ⟨os, dst, slot, hos, ho⟩
    | _ => cases h
  · rintro ⟨os, dst, slot, hos, ho⟩
    exact ⟨os, _, hos, ho, rfl⟩

lemma jumpToPc_mem_importsOf : .jumpToPc ∈ importsOf f ↔
    ∃ os dst target, (Shape.body os).Within f.body ∧ (Op.jump dst target).Within os := by
  have hmem : .jumpToPc ∈ importsOf f ↔ f.any Op.isJump = true := by
    unfold importsOf
    split_ifs <;> simp_all
  rw [hmem, any_iff]
  constructor
  · rintro ⟨os, o, hos, ho, h⟩
    cases o with
    | jump dst target => exact ⟨os, dst, target, hos, ho⟩
    | _ => cases h
  · rintro ⟨os, dst, target, hos, ho⟩
    exact ⟨os, _, hos, ho, rfl⟩

lemma tick_mem_importsOf :
    .tick ∈ importsOf f ↔ ∃ label inner, (Shape.loop label inner).Within f.body := by
  rw [← Shape.hasLoop_iff]
  unfold importsOf
  split_ifs <;> simp_all

lemma nodup_importsOf : (importsOf f).Nodup := by
  unfold importsOf
  split_ifs <;> decide

end Imports

lemma supplied_importsOf (f : Ir.Function) : Codegen.Supplied (importsOf f) f.body := by
  apply Shape.all_of_bodies
  intro os hos i hi
  have hany : ∀ p, Op.anyOf p os = true → f.any p = true := fun p h =>
    List.any_eq_true.mpr ⟨os, hos, h⟩
  rcases anyOf_of_mem_hostsOf hi with ⟨rfl, h⟩ | ⟨rfl, h⟩
  · simp [importsOf, hany _ h]
  · simp [importsOf, hany _ h]

section Emission

variable {f : Ir.Function} {o : Options} {m : Module}

lemma moduleOf_eq_ok (h : moduleOf f o = .ok m) : o.Limited ∧ ∃ code,
    Codegen.shape ⟨f.locals, importsOf f, o.ramBytes⟩ [] f.body = .ok code ∧
      m = ⟨o.memoryMin, o.memoryMax, importsOf f, o.exportName, f.locals.size + 3,
        code ++ [.unreachable]⟩ := by
  unfold moduleOf at h
  obtain ⟨_, hvalid, h⟩ := except_bind_eq_ok.mp h
  obtain ⟨code, hcode, h⟩ := except_bind_eq_ok.mp h
  cases h
  exact ⟨o.validate_ok_iff.mp hvalid, code, hcode, rfl⟩

/-- A module is made exactly when the limits are in order and every jump has a construct to lead
to. -/
lemma exists_moduleOf : (∃ m, moduleOf f o = .ok m) ↔ o.Limited ∧ f.body.Scoped [] := by
  have hshape := Codegen.exists_shape (c := ⟨f.locals, importsOf f, o.ramBytes⟩) []
    (supplied_importsOf f)
  constructor
  · rintro ⟨m, h⟩
    obtain ⟨hlimits, code, hcode, -⟩ := moduleOf_eq_ok h
    exact ⟨hlimits, hshape.mp ⟨code, hcode⟩⟩
  · rintro ⟨hlimits, hscoped⟩
    obtain ⟨code, hcode⟩ := hshape.mpr hscoped
    exact ⟨_, by simp only [moduleOf, o.validate_ok_iff.mpr hlimits, hcode]; rfl⟩

lemma emitFunction_eq_ok {bytes : ByteArray} :
    emitFunction f o = .ok bytes ↔ ∃ m, moduleOf f o = .ok m ∧ m.encode = bytes := by
  unfold emitFunction
  cases moduleOf f o with
  | error e => exact ⟨nofun, nofun⟩
  | ok m => simp [Except.map]

lemma functions_importsOf (h : m.imports = importsOf f) :
    m.functions = some ((importsOf f).map Import.type ++ [([.i32], [.i64])]) := by
  unfold Module.functions
  rw [h]
  unfold importsOf
  split_ifs <;> rfl

lemma valid_of_moduleOf (hf : f.Declared) (h : moduleOf f o = .ok m) : m.Valid := by
  obtain ⟨hlimits, code, hcode, rfl⟩ := moduleOf_eq_ok h
  refine ⟨rfl, hlimits, _, [.i32], [.i64], functions_importsOf rfl, ?_, rfl, ?_⟩
  · simp [Module.exported]
  have hsuits : Suits ⟨f.locals, importsOf f, o.ramBytes⟩
      ⟨.i32 :: (List.replicate (f.locals.size + 3) .i64 ++ [.i32]),
        (importsOf f).map Import.type ++ [([.i32], [.i64])], [[.i64]], [.i64]⟩ := by
    refine ⟨rfl, ?_, ?_, ?_, rfl⟩
    · intro i hi
      have hi : i < f.locals.size + 3 := hi
      simp [Nat.add_comm 1 i, List.getElem?_append, hi]
    · simp [Context.dispatchLocal, Context.longLocals]
    · intro index i hi
      obtain ⟨hlt, rfl⟩ : ∃ hlt, (importsOf f).get ⟨index, hlt⟩ = i := List.getElem?_eq_some_iff.mp hi
      simp [List.getElem?_append, hlt]
  have htyped := Codegen.shape_typed hsuits
    (by intro depth hlt; exact absurd hlt (Nat.not_lt_zero depth)) hf hcode
  simpa [Module.localTypes, Module.localGroups] using htyped.append (.single .unreachable)

end Emission

/-- A module is what was asked for a function: the memory and the export have the limits and the
name of the options, the code has the constructs of the function and refers to the host functions
and constructs that the function names, and a host function is imported exactly when an operation
or a loop, at whatever depth, needs it. -/
structure Module.MadeFor (m : Module) (f : Ir.Function) (o : Options) : Prop where
  memory : m.memoryMin = o.memoryMin ∧ m.memoryMax = o.memoryMax
  exportName : m.exportName = o.exportName
  constructs : constructsAll m.body = f.body.constructs
  references : referencesAll m.imports [] 0 m.body = (f.body.references [] 0).map some
  nodup : m.imports.Nodup
  callSlot : .callSlot ∈ m.imports ↔
    ∃ os dst slot, (Shape.body os).Within f.body ∧ (Op.call dst slot).Within os
  jumpToPc : .jumpToPc ∈ m.imports ↔
    ∃ os dst target, (Shape.body os).Within f.body ∧ (Op.jump dst target).Within os
  tick : .tick ∈ m.imports ↔ ∃ label inner, (Shape.loop label inner).Within f.body

lemma madeFor_of_moduleOf {f : Ir.Function} {o : Options} {m : Module}
    (h : moduleOf f o = .ok m) : m.MadeFor f o := by
  obtain ⟨-, code, hcode, rfl⟩ := moduleOf_eq_ok h
  obtain ⟨hkinds, hrefs⟩ := Codegen.shape_mirrors
    (fun hloop => tick_mem_importsOf.mpr (Shape.hasLoop_iff.mp hloop)) (by exact nofun) hcode
  refine ⟨⟨rfl, rfl⟩, rfl, ?_, ?_, nodup_importsOf, callSlot_mem_importsOf,
    jumpToPc_mem_importsOf, tick_mem_importsOf⟩
  · simp [hkinds, constructsAll, Instruction.constructs]
  · simp [hrefs [] [] .nil 0, referencesAll, Instruction.references]

/-- For a function that refers only to locals it has, bytes are emitted exactly when the limits of
the memory are in order and every jump has a construct around it with its label, and they are then
those of a valid module made for the function. -/
theorem emitFunction_valid (f : Ir.Function) (o : Options) (hf : f.Declared) :
    ((∃ bytes, emitFunction f o = .ok bytes) ↔ o.Limited ∧ f.body.Scoped []) ∧
      ∀ bytes, emitFunction f o = .ok bytes →
        ∃ m, moduleOf f o = .ok m ∧ bytes = m.encode ∧ m.Valid ∧ m.MadeFor f o := by
  constructor
  · rw [← exists_moduleOf]
    constructor
    · rintro ⟨bytes, h⟩
      obtain ⟨m, hm, -⟩ := emitFunction_eq_ok.mp h
      exact ⟨m, hm⟩
    · rintro ⟨m, hm⟩
      exact ⟨m.encode, emitFunction_eq_ok.mpr ⟨m, hm, rfl⟩⟩
  · intro bytes h
    obtain ⟨m, hm, rfl⟩ := emitFunction_eq_ok.mp h
    exact ⟨m, hm, rfl, valid_of_moduleOf hf hm, madeFor_of_moduleOf hm⟩

/-- A function that calls the code in a slot until that comes back to address zero. -/
def callingLoop : Ir.Function where
  entry := 0
  locals := #[.i64]
  body := .loop 0 (.seq [.body [.call (.scratch ⟨0⟩) 3],
    .cond (.cond (.place (.scratch ⟨0⟩))) (.br 0) (.body [.ret (.imm 0)])])

theorem emitFunction_callingLoop : callingLoop.Declared ∧
    (∃ bytes, emitFunction callingLoop .default = .ok bytes) ∧
      ∀ bytes, emitFunction callingLoop .default = .ok bytes →
        ∃ m, moduleOf callingLoop .default = .ok m ∧ bytes = m.encode ∧ m.Valid ∧
          m.MadeFor callingLoop .default := by
  have hf : callingLoop.Declared := by
    simp [Ir.Function.Declared, callingLoop, Shape.All, Shape.AllOf, Op.AllDeclared, Op.Declared,
      Ir.Place.Declared, Operand.Declared]
  have hlimited : Options.default.Limited := ⟨by decide, nofun⟩
  have hscoped : callingLoop.body.Scoped [] := by
    simp [callingLoop, Shape.Scoped, Shape.ScopedAll]
  obtain ⟨hexists, hvalid⟩ := emitFunction_valid callingLoop .default hf
  exact ⟨hf, hexists.mpr ⟨hlimited, hscoped⟩, hvalid⟩

end Dynarec.Wasm
