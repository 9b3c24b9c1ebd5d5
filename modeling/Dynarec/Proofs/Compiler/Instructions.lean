import Dynarec.Compiler.Lower
import Dynarec.Proofs.Compiler.Computes
import Dynarec.Proofs.Instr.Decoding

/-!
# What instructions do

An instruction is compiled wherever no scratch local is held. `Performs` says what its operations do to
the processor when they run: from every frame, whatever the memory, the host and the scratch locals are.
-/

namespace Dynarec.Compiler

open Interp (Frame Services runOps)
open Ir (Op Ty Scratch)

variable {m : EmitM Unit} {effect : Cpu.State → Cpu.State}

/-- In every block that holds no scratch local a piece of the compiler succeeds and appends operations
that change the processor as `effect` says and change nothing else. It leaves no local held. -/
def Performs (m : EmitM Unit) (effect : Cpu.State → Cpu.State) : Prop :=
  ∀ b : Block, b.scratch.Valid → (∀ l, ¬ b.scratch.Holds l) → ∃ ops scratch,
    m b = .ok () { b with ops := b.ops ++ ops, scratch := scratch } ∧
    scratch.Valid ∧ (∀ l, ¬ scratch.Holds l) ∧ Declares b.scratch.types scratch.types ∧
    ∀ {H : Type} (services : Services H) (types : Array Ty) (f : Frame H),
      Declares scratch.types types → f.locals.size = types.size → ∃ locals : Array UInt64,
        runOps services types ops.toList f =
          .ok none ⟨⟨effect f.machine.cpu, f.machine.mem, f.machine.host⟩, locals⟩ ∧
        locals.size = types.size

lemma owns_nil {s : Scratch} (hs : s.Valid) (hnone : ∀ l, ¬ s.Holds l) : Owns s [] where
  valid := hs
  holds l := by simp [hnone l]
  nodup := List.nodup_nil
  typed := nofun

/-- What is appended to a block does not depend on what is known of the machine. -/
lemma exists_appended {α ι : Type} {m : EmitM α} {b : Block} {R : ι → α → Array Op → Scratch → Prop} (i₀ : ι)
    (h : ∀ i, ∃ a ops scratch,
      m b = .ok a { b with ops := b.ops ++ ops, scratch := scratch } ∧ R i a ops scratch) :
    ∃ a ops scratch, m b = .ok a { b with ops := b.ops ++ ops, scratch := scratch } ∧
      ∀ i, R i a ops scratch := by
  obtain ⟨a, ops, scratch, hrun, -⟩ := h i₀
  refine ⟨a, ops, scratch, hrun, fun i => ?_⟩
  obtain ⟨a', ops', scratch', hrun', hR⟩ := h i
  rw [hrun] at hrun'
  obtain ⟨rfl, hops, rfl⟩ : a = a' ∧ b.ops ++ ops = b.ops ++ ops' ∧ scratch = scratch' := by
    injection hrun' with ha hblock
    injection hblock with _ _ hops _ hscratch _
    exact ⟨ha, hops, hscratch⟩
  obtain rfl := Array.append_right_inj _ |>.1 hops
  exact hR

lemma performs_of_computes
    (h : ∀ cpu mem, Computes ⟨[], cpu, mem⟩ m (Arrives ⟨[], effect cpu, mem⟩)) :
    Performs m effect := by
  intro b hb hnone
  obtain ⟨_, ops, scratch, hrun, hall⟩ := exists_appended (m := m) (b := b)
    (R := fun (cpu, mem) _ ops scratch => Owns scratch [] ∧ Declares b.scratch.types scratch.types ∧
      Takes ⟨[], cpu, mem⟩ ⟨[], effect cpu, mem⟩ scratch.types ops.toList)
    (.reset, ⟨.empty⟩) fun (cpu, mem) => by
    obtain ⟨_, ops, scratch, _, hrun, rfl, hparts⟩ := (h cpu mem).run b (owns_nil hb hnone)
    exact ⟨(), ops, scratch, hrun, hparts⟩
  obtain ⟨hs, hdeclares, -⟩ := hall (.reset, ⟨.empty⟩)
  refine ⟨ops, scratch, hrun, hs.valid, fun l hl => ?_, hdeclares, ?_⟩
  · simpa using (hs.holds l).1 hl
  · intro H services types f hT hsize
    obtain ⟨-, -, htakes⟩ := hall (f.machine.cpu, f.machine.mem)
    obtain ⟨⟨⟨cpu, mem, host⟩, locals⟩, hruns, hhost, hfits⟩ :=
      htakes services types f hT ⟨rfl, rfl, hsize, nofun⟩
    obtain ⟨hcpu, hmem, hsize', -⟩ := hfits
    dsimp only at hcpu hmem hhost hsize'
    subst hcpu hmem hhost
    exact ⟨locals, hruns, hsize'⟩

/-! ### Words -/

lemma require_bind {α : Type} (allocated : Bool) (f : Unit → Except Instr.FieldError α) :
    (Instr.Form.require allocated >>= f) = if allocated then f () else .error .unallocated := by
  cases allocated <;> rfl

section
variable {word mask value : UInt32} {i : Nat} {form : Instr.Form} {fields : List Encoding.Field}

/-- A position of six bits is refused in the low half of a register when it does not exist there. -/
lemma allocated_iff {width : Width} {n : Nat} (h : n < 2 ^ 6) :
    (width == .w64 || n < 32) = true ↔ n < width.bits := by
  cases width with
  | w32 => simp [Width.bits]
  | w64 => simpa [Width.bits] using h

/-- Compile an instruction that was read, if there is one. -/
def lowerRead : Except Instr.FieldError Instr → EmitM Unit
  | .ok i => lower i
  | .error _ => invalid

/-- A word with the fixed bits of a form is compiled as the instruction that its fields are read as, if
they are admitted. -/
lemma lowerWord_read {result : Except Instr.FieldError Instr}
    (hform : Instr.Form.all[i]? = some form) (hpattern : form.toPattern = .ok ⟨mask, value, fields⟩)
    (hword : word &&& mask = value) (hall : fields.all (·.admits word) = true)
    (hread : form.read ⟨word, fields.map fun f => (f.name, f.extract word)⟩ = result) :
    lowerWord word = lowerRead result := by
  subst hread
  rw [lowerWord, Instr.Form.decode_eq hform hpattern hword, if_pos hall]
  rfl

/-- A word with the fixed bits of a form is refused if its fields are not admitted. -/
lemma lowerWord_refused (hform : Instr.Form.all[i]? = some form)
    (hpattern : form.toPattern = .ok ⟨mask, value, fields⟩) (hword : word &&& mask = value)
    (hall : fields.all (·.admits word) = false) : lowerWord word = invalid := by
  have hnot : ¬ fields.all (·.admits word) = true := by simp [hall]
  rw [lowerWord, Instr.Form.decode_eq hform hpattern hword, if_neg hnot]

end

end Dynarec.Compiler
