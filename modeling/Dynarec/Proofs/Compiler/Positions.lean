import Dynarec.Instr.Listing
import Dynarec.Proofs.Compiler.Additions
import Dynarec.Proofs.Compiler.Bitfields

/-!
# Positions in 32-bit forms

A 32-bit form has no bit position, rotation or amount of a shift of 32 or more. Moves of immediates, extracts
and shifted registers refuse the words that encode one. Bitfield moves do not: they bound the size of the
pattern only, and count positions within it.
-/

namespace Dynarec.Instr

/-- The classes of instructions that encode positions in a register. -/
inductive PositionClass where
  | moveWide
  | bitfield
  | extract
  | logical
  | addSub
  deriving DecidableEq

namespace PositionClass

/-- The bits that are fixed in a class, as a mask and the values of the bits. -/
def fixed : PositionClass → UInt32 × UInt32
  | .moveWide => (0x1f800000, 0x12800000)
  | .bitfield => (0x1f800000, 0x13000000)
  | .extract => (0x7fa00000, 0x13800000)
  | .logical => (0x1f000000, 0x0a000000)
  | .addSub => (0x1f200000, 0x0b000000)

/-- A word is a 32-bit form of a class. -/
structure Encodes (c : PositionClass) (word : UInt32) : Prop where
  fixed : word &&& c.fixed.1 = c.fixed.2
  size : bitsAt word 31 1 = 0

/-- The positions that a word of a class encodes. -/
def positions (word : UInt32) : PositionClass → List Nat
  | .moveWide => [16 * bitsAt word 21 2]
  | .bitfield => [bitsAt word 16 6, bitsAt word 10 6]
  | .extract | .logical | .addSub => [bitsAt word 10 6]

end PositionClass

end Dynarec.Instr

namespace Dynarec.Compiler

open Instr (Form PositionClass bitsAt)

variable {word mask value : UInt32}

/-! ### Refused words -/

/-- A word is no instruction: it does not compile, and it is listed as data. -/
structure Refused (word : UInt32) : Prop where
  compiled : ∀ b : Block, lowerWord word b = .error (.invalidEncoding b.pc b.word) b
  listed : Instr.disassemble word = Instr.Operand.data word

/-- A word with the fixed bits of a form is refused if its fields are not read as an instruction where they
are admitted. -/
lemma refused_of_read {i : Nat} {form : Form} {fields : List Encoding.Field}
    (hform : Form.all[i]? = some form) (hpattern : form.toPattern = .ok ⟨mask, value, fields⟩)
    (hword : word &&& mask = value)
    (hread : fields.all (·.admits word) = true →
      form.read ⟨word, fields.map fun f => (f.name, f.extract word)⟩ = .error .unallocated) :
    Refused word := by
  have hdecode := Form.decode_eq hform hpattern hword
  cases hall : fields.all (·.admits word) with
  | true =>
    refine ⟨fun b => ?_, ?_⟩
    · rw [lowerWord_read hform hpattern hword hall (hread hall)]
      rfl
    · rw [Instr.disassemble, hdecode, if_pos hall]
      dsimp only [Encoding.Pattern.extract]
      rw [hread hall]
  | false =>
    refine ⟨fun b => ?_, ?_⟩
    · rw [lowerWord_refused hform hpattern hword hall]
      rfl
    · rw [Instr.disassemble, hdecode, if_neg (by simp [hall])]

lemma read_moveWide (word : UInt32) (opc imm rd : Nat) {sf hw : Nat} (hsf : sf = 0) (h : 2 ≤ hw) :
    Form.moveWide ⟨word, [("sf", sf), ("opc", opc), ("hw", hw), ("imm16", imm), ("Rd", rd)]⟩ =
      .error .unallocated := by
  subst hsf
  show (Form.require (Width.w32 == .w64 || hw < 2) >>= fun _ => _) = _
  rw [require_bind, decide_eq_false (Nat.not_lt.2 h)]
  rfl

lemma read_bitfield_reserved (word : UInt32) (opc immr rn rd : Nat) {sf n imms : Nat} (hsf : sf = 0)
    (h : n ≠ 0 ∨ 62 ≤ imms % 64) : Form.bitfield ⟨word, [("sf", sf), ("opc", opc), ("N", n),
      ("immr", immr), ("imms", imms), ("Rn", rn), ("Rd", rd)]⟩ = .error .unallocated := by
  subst hsf
  show (Form.require (n == 0) >>= fun _ =>
    Form.allocated (Bits.decodeMasks n imms immr false .w32) >>= fun _ => _) = _
  rw [require_bind]
  by_cases hn : n = 0
  · subst hn
    have himms : 62 ≤ imms % 64 := h.resolve_left (not_not_intro rfl)
    have hmasks : Bits.decodeMasks 0 imms immr false .w32 = none :=
      if_pos (show 0 % 2 * 64 + (63 - imms % 64) < 2 by omega)
    rw [beq_self_eq_true, if_pos rfl, hmasks]
    rfl
  · rw [if_neg (by simpa using hn)]

lemma read_logical (word : UInt32) (opc shift n rm rn rd : Nat) {sf amount : Nat} (hsf : sf = 0)
    (h : 32 ≤ amount) : Form.logicalReg ⟨word, [("sf", sf), ("opc", opc), ("shift", shift), ("N", n),
      ("Rm", rm), ("imm6", amount), ("Rn", rn), ("Rd", rd)]⟩ = .error .unallocated := by
  subst hsf
  show ((Form.require (Width.w32 == .w64 || amount < 32) >>= fun _ => .ok amount) >>= fun _ => _) = _
  rw [bind_assoc, require_bind, decide_eq_false (Nat.not_lt.2 h)]
  rfl

/-! ### Words -/

/-- A bitfield move whose positions are not checked: one of a pattern that is not wider than a register. -/
structure Unchecked (c : PositionClass) (word : UInt32) : Prop where
  bitfield : c = .bitfield
  opc : bitsAt word 29 2 ≠ 3
  size : bitsAt word 22 1 = 0
  imms : bitsAt word 10 6 < 62

/-- The position of a form that encodes one. -/
lemma le_of_positions {c : PositionClass} {n : Nat} (h : c.positions word = [n])
    (hpos : ∃ p ∈ c.positions word, 32 ≤ p) : 32 ≤ n := by
  obtain ⟨p, hp, hle⟩ := hpos
  rw [h] at hp
  rwa [← List.mem_singleton.1 hp]

lemma refused_of_unread (c : PositionClass) (h : c.Encodes word)
    (hpos : ∃ p ∈ c.positions word, 32 ≤ p) (hc : ¬ Unchecked c word) : Refused word := by
  cases c with
  | moveWide =>
    have hshift : 32 ≤ 16 * bitsAt word 21 2 := le_of_positions rfl hpos
    have hread := read_moveWide word (bitsAt word 29 2) (bitsAt word 5 16) (bitsAt word 0 5) h.size
      (show 2 ≤ bitsAt word 21 2 by omega)
    exact refused_of_read (i := 35) rfl (Form.toPattern_of_chars (P := fun p => p = .ok _) rfl rfl)
      h.fixed fun _ => hread
  | bitfield =>
    refine refused_of_read (i := 36) rfl toPattern_bitfield h.fixed fun hall => ?_
    have hopc := (admits_bitfield word).1 hall
    have hreserved : bitsAt word 22 1 ≠ 0 ∨ 62 ≤ bitsAt word 10 6 % 64 := by
      have himms : bitsAt word 10 6 < 2 ^ 6 := Instr.bitsAt_lt word 10 6
      by_contra hnot
      exact hc ⟨rfl, hopc, by omega, by omega⟩
    exact read_bitfield_reserved word (bitsAt word 29 2) (bitsAt word 16 6) (bitsAt word 5 5)
      (bitsAt word 0 5) h.size hreserved
  | extract =>
    have hle : 32 ≤ bitsAt word 10 6 := le_of_positions rfl hpos
    have hlsb : ¬ (bitsAt word 22 1 == bitsAt word 31 1 &&
        (Width.ofSizeBit (bitsAt word 31 1) == .w64 || decide (bitsAt word 10 6 < 32))) = true := by
      rw [Bool.and_eq_true, allocated_iff (Instr.bitsAt_lt word 10 6), h.size]
      exact fun hok => Nat.not_lt.2 hle hok.2
    have hread := read_extract word (bitsAt word 31 1) (bitsAt word 22 1) (bitsAt word 16 5)
      (bitsAt word 10 6) (bitsAt word 5 5) (bitsAt word 0 5)
    rw [if_neg hlsb] at hread
    exact refused_of_read (i := 37) rfl (Form.toPattern_of_chars (P := fun p => p = .ok _) rfl rfl)
      h.fixed fun _ => hread
  | logical =>
    have hread := read_logical word (bitsAt word 29 2) (bitsAt word 22 2) (bitsAt word 21 1)
      (bitsAt word 16 5) (bitsAt word 5 5) (bitsAt word 0 5) h.size (le_of_positions rfl hpos)
    exact refused_of_read (i := 38) rfl (Form.toPattern_of_chars (P := fun p => p = .ok _) rfl rfl)
      h.fixed fun _ => hread
  | addSub =>
    have hle : 32 ≤ bitsAt word 10 6 := le_of_positions rfl hpos
    have hamount : ¬ (Width.ofSizeBit (bitsAt word 31 1) == .w64 ||
        decide (bitsAt word 10 6 < 32)) = true := by
      rw [allocated_iff (Instr.bitsAt_lt word 10 6), h.size]
      exact Nat.not_lt.2 hle
    have hread := read_shifted word (bitsAt word 31 1) (bitsAt word 30 1) (bitsAt word 29 1)
      (bitsAt word 22 2) (bitsAt word 16 5) (bitsAt word 10 6) (bitsAt word 5 5) (bitsAt word 0 5)
    rw [if_neg hamount] at hread
    exact refused_of_read (i := 39) rfl toPattern_shifted h.fixed fun _ => hread

/-- Every pattern of at most 32 bits has masks. -/
lemma exists_decodeMasks {n imms : Nat} (hn : n = 0) (h : imms < 62) (immr : Nat) :
    ∃ wmask tmask, Bits.decodeMasks n imms immr false (.ofSizeBit n) = some (wmask, tmask) := by
  subst hn
  have hmod : imms % 64 = imms := Nat.mod_eq_of_lt (by omega)
  have hlog : (63 - imms).log2 ≤ 5 := Nat.lt_succ_iff.1 ((Nat.log2_lt (by omega)).2 (by omega))
  have hsize : ¬ 32 < 1 <<< (63 - imms).log2 := by
    rw [Nat.one_shiftLeft]
    exact Nat.not_lt.2 (Nat.pow_le_pow_right (by decide) hlog)
  unfold Bits.decodeMasks
  simp only [hmod, Nat.zero_mod, Nat.zero_mul, Nat.zero_add, if_neg (show ¬ 63 - imms < 2 by omega)]
  exact ⟨_, _, if_neg hsize⟩

lemma performs_of_unchecked (c : PositionClass) (h : c.Encodes word) (hc : Unchecked c word) :
    ∃ effect, Performs (lowerWord word) effect := by
  obtain ⟨rfl, hopc, hn, himms⟩ := hc
  have hn' : bitsAt word 22 1 = bitsAt word 31 1 := hn.trans h.size.symm
  obtain ⟨wmask, tmask, hmasks⟩ := exists_decodeMasks h.size himms (bitsAt word 16 6)
  have hread := read_bitfield word (bitsAt word 29 2) (bitsAt word 5 5) (bitsAt word 0 5) hn' hmasks
  rw [lowerWord_read (i := 36) rfl toPattern_bitfield h.fixed ((admits_bitfield word).2 hopc) hread]
  exact ⟨_, performs_of_computes fun cpu mem => .masked _ _ _ _ wmask tmask _ _⟩

/-- A 32-bit form that encodes a position of 32 or more is refused, but for the bitfield moves whose positions
are not checked: each of these is compiled. -/
theorem refused_of_position (c : PositionClass) (word : UInt32) (h : c.Encodes word) :
    (¬ Unchecked c word → (∃ p ∈ c.positions word, 32 ≤ p) → Refused word) ∧
    (Unchecked c word → ∃ effect, Performs (lowerWord word) effect) :=
  ⟨fun hc hpos => refused_of_unread c h hpos hc, performs_of_unchecked c h⟩

/-- A move of an immediate to the third half of a register of two halves. -/
theorem refused_moveWide_third :
    PositionClass.moveWide.Encodes 0x52c00000 ∧ Refused 0x52c00000 := by
  have hword : PositionClass.moveWide.Encodes 0x52c00000 := ⟨rfl, rfl⟩
  refine ⟨hword, (refused_of_position .moveWide _ hword).1 (fun hc => ?_) ⟨32, ?_, Nat.le_refl _⟩⟩
  · cases hc.bitfield
  · decide

/-- A word that compiles is not refused. -/
lemma Performs.not_refused {effect : Cpu.State → Cpu.State} (h : Performs (lowerWord word) effect) :
    ¬ Refused word := by
  intro hrefused
  obtain ⟨ops, scratch, hrun, -⟩ :=
    h (.start 0 .empty (.ofSize 0)) Ir.Scratch.valid_empty fun _ => Ir.Scratch.not_holds_empty
  rw [hrefused.compiled] at hrun
  cases hrun

/-- A rotation of a 32-bit register by 32 bits is compiled. -/
theorem not_refused_bitfield_rotation : PositionClass.bitfield.Encodes 0x53201c20 ∧
    (∃ p ∈ PositionClass.bitfield.positions 0x53201c20, 32 ≤ p) ∧ ¬ Refused 0x53201c20 := by
  have hword : PositionClass.bitfield.Encodes 0x53201c20 := ⟨rfl, rfl⟩
  obtain ⟨effect, heffect⟩ := performs_of_unchecked .bitfield hword ⟨rfl, by decide, rfl, by decide⟩
  exact ⟨hword, ⟨32, by decide, Nat.le_refl _⟩, heffect.not_refused⟩

end Dynarec.Compiler
