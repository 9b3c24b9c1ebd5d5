import Dynarec.Instr.Listing
import Dynarec.Proofs.Compiler.Linked
import Dynarec.Proofs.Compiler.Regular
import Dynarec.Proofs.Instr.Assembled

/-!
# Allocated encodings

What a word is read as decides what is written for it in a listing and whether it is compiled. The text of an
instruction is never that of a word of data, and of the instructions only those that raise an exception are not
compiled. So the words that are listed as data are those that are refused.
-/

namespace Dynarec.Compiler

open Instr

/-- A word encodes a bitfield move with a position that its register does not have. -/
def Misplaced (word : UInt32) : Prop := ∃ i, instrOf word = some i ∧ i.Misplaced

section
variable {word : UInt32} {i : Instr}

lemma exists_decode (h : instrOf word = some i) :
    ∃ form fields, decode word = .ok (form, fields) ∧ form.read fields = .ok i := by
  unfold instrOf at h
  split at h
  · next form fields hdecode =>
    refine ⟨form, fields, hdecode, ?_⟩
    cases hread : form.read fields with
    | error e =>
      rw [hread] at h
      cases h
    | ok j =>
      rw [hread] at h
      cases h
      rfl
  · cases h

lemma instrOf_decode {form : Form} {fields : Encoding.Fields} (h : decode word = .ok (form, fields)) :
    instrOf word = (form.read fields).toOption := by
  rw [instrOf, h]

/-- What a word is read as is an instruction that an encoding can hold. -/
lemma encodable_of_instrOf (h : instrOf word = some i) : i.Encodable := by
  obtain ⟨form, fields, hdecode, hread⟩ := exists_decode h
  have hfair := Form.fair_decode hdecode
  rw [hread] at hfair
  exact hfair.1

/-! ### Listings -/

lemma disassemble_eq (word : UInt32) : disassemble word = match instrOf word with
    | some i => i.text
    | none => Operand.data word := by
  unfold disassemble instrOf
  cases decode word with
  | error e => rfl
  | ok r =>
    obtain ⟨form, fields⟩ := r
    dsimp only
    cases form.read fields <;> rfl

/-- The text of a word is read back as the plain form of the instruction that the word encodes. -/
lemma assemble_disassemble (h : ¬ Misplaced word) :
    Assembler.assemble (disassemble word) = (instrOf word).map Instr.plain := by
  rw [disassemble_eq]
  cases hi : instrOf word with
  | none => exact Assembler.assemble_data word
  | some i => exact Assembler.assemble_text (encodable_of_instrOf hi) fun hm => h ⟨i, hi, hm⟩

lemma disassemble_eq_data_iff (h : ¬ Misplaced word) :
    disassemble word = Operand.data word ↔ instrOf word = none := by
  constructor
  · intro htext
    have hread := assemble_disassemble h
    rw [htext, Assembler.assemble_data] at hread
    exact Option.map_eq_none_iff.1 hread.symm
  · intro hnone
    rw [disassemble_eq, hnone]

end

/-! ### Blocks -/

/-- Every instruction that raises no exception is compiled between instructions. -/
lemma lower_of_not_raises {i : Instr} (h : i.raises = false) {b : Block} (hb : b.Settled)
    (hopen : b.terminator = none) : ∃ b', lower i b = .ok () b' ∧ b'.Settled := by
  apply lower_ok _ hb hopen
  rintro kind imm rfl
  cases h

end Dynarec.Compiler
