import Dynarec.Proofs.Cpu.Places
import Dynarec.Proofs.Word.Bytes
import Dynarec.Wasm.Codegen

/-!
# Layout of the register image

The image of a state is a faithful copy of it: it is read as the state that was written, and an image that is read and
written again is what it was. Every register has a word of its own at the offset where compiled code looks for it, the
words do not overlap, and together they are the whole image.
-/

namespace Dynarec.Cpu.State

open Ir (Place)

/-- A register that has a word of its own in the image. -/
inductive Cell where
  | x (n : Fin 31)
  | spEl (k : Fin 4)
  | elr (k : Fin 3)
  | spsr (k : Fin 3)
  | flag (f : Flag)
  | el
  | spsel
  | daif
  | sys (slot : Fin SysReg.slotCount)

namespace Cell

/-- Where the word of a register is in the image. -/
def offset : Cell → Nat
  | x n => xOffset n
  | spEl k => spElBase + k * 8
  | elr k => elrBase + k * 8
  | spsr k => spsrBase + k * 8
  | flag f => flagOffset f
  | el => elOffset
  | spsel => spselOffset
  | daif => daifOffset
  | sys slot => sysOffset slot

/-- The field of a state that is a register. -/
def field (s : State) : Cell → UInt64
  | x n => s.x.get n
  | spEl k => s.spEl.get k
  | elr k => s.elrEl.get k
  | spsr k => s.spsrEl.get k
  | flag f => s.flags.get f.index
  | el => s.el
  | spsel => s.spsel
  | daif => s.daif
  | sys slot => s.sys.get slot

/-- The register of a place whose offset does not depend on the state. -/
def ofPlace? : Place → Option Cell
  | .x n => if h : n < 31 then some (x ⟨n, h⟩) else none
  | .spEl n => some (spEl (spBank n))
  | .elr (.level n) => some (elr (bankIndex n))
  | .spsr (.level n) => some (spsr (bankIndex n))
  | .flag f => some (flag f)
  | .el => some el
  | .spsel => some spsel
  | .daif => some daif
  | .sys slot => some (sys slot)
  | .sp | .elr .current | .spsr .current | .scratch _ => none

/-- Compiled code looks for a register at the offset of its word. -/
lemma fixedOffset_eq {p : Place} {c : Cell} (h : ofPlace? p = some c) :
    Wasm.Codegen.fixedOffset p = c.offset := by
  cases p with
  | x n =>
    rw [ofPlace?] at h
    split at h
    · cases h
      rfl
    · cases h
  | elr bank | spsr bank =>
    cases bank with
    | current => cases h
    | level n =>
      cases h
      rfl
  | sp | scratch l => cases h
  | _ =>
    cases h
    rfl

/-! ### The order of the words -/

/-- The number of the word of a register. -/
def index : Cell → Nat
  | x n => n
  | spEl k => 31 + k
  | elr k => 35 + k
  | spsr k => 38 + k
  | flag f => 41 + f.index
  | el => 45
  | spsel => 46
  | daif => 47
  | sys slot => 48 + slot

lemma offset_eq (c : Cell) : c.offset = c.index * 8 := by
  cases c with
  | el | spsel | daif => rfl
  | _ =>
    simp only [offset, index, xOffset, flagOffset, sysOffset, xBase, spElBase, elrBase, spsrBase, flagsBase, elOffset,
      spselOffset, daifOffset, sysBase]
    omega

lemma index_lt (c : Cell) : c.index < wordCount := by
  cases c with
  | el | spsel | daif => decide
  | flag f =>
    have := f.index.isLt
    simp only [index, wordCount]
    omega
  | _ =>
    simp only [index, wordCount, SysReg.slotCount]
    omega

/-- Every word is that of a register. -/
lemma exists_index {i : Nat} (hi : i < wordCount) : ∃ c : Cell, c.index = i := by
  rcases Nat.lt_or_ge i 31 with hx | hx
  · exact ⟨x ⟨i, hx⟩, rfl⟩
  rcases Nat.lt_or_ge i 35 with hsp | hsp
  · exact ⟨spEl ⟨i - 31, by omega⟩, Nat.add_sub_cancel' hx⟩
  rcases Nat.lt_or_ge i 38 with helr | helr
  · exact ⟨elr ⟨i - 35, by omega⟩, Nat.add_sub_cancel' hsp⟩
  rcases Nat.lt_or_ge i 41 with hspsr | hspsr
  · exact ⟨spsr ⟨i - 38, by omega⟩, Nat.add_sub_cancel' helr⟩
  rcases Nat.lt_or_ge i 48 with hflag | hsys
  · obtain rfl | rfl | rfl | rfl | rfl | rfl | rfl :
        i = 41 ∨ i = 42 ∨ i = 43 ∨ i = 44 ∨ i = 45 ∨ i = 46 ∨ i = 47 := by omega
    exacts [⟨flag .n, rfl⟩, ⟨flag .z, rfl⟩, ⟨flag .c, rfl⟩, ⟨flag .v, rfl⟩, ⟨el, rfl⟩, ⟨spsel, rfl⟩, ⟨daif, rfl⟩]
  · have hslot : i - 48 < SysReg.slotCount := by
      simp only [wordCount, SysReg.slotCount] at *
      omega
    exact ⟨sys ⟨i - 48, hslot⟩, Nat.add_sub_cancel' hsys⟩

lemma flag_eq_of_index {f f' : Flag} (h : f.index = f'.index) : f = f' := by
  cases f <;> cases f' <;> first | rfl | cases h

/-- Different registers have different words. -/
lemma index_injective {c c' : Cell} (h : c.index = c'.index) : c = c' := by
  cases c <;> cases c' <;> grind [index, flag_eq_of_index]

/-- The word of a register is its field. -/
lemma toWords_index (s : State) (c : Cell) : s.toWords[c.index]? = some (c.field s) := by
  cases c with
  | x n => exact s.toWords_x n
  | spEl k => exact s.toWords_spEl k
  | elr k => exact s.toWords_elrEl k
  | spsr k => exact s.toWords_spsrEl k
  | flag f => exact s.toWords_flags f.index
  | el => exact s.toWords_el
  | spsel => exact s.toWords_spsel
  | daif => exact s.toWords_daif
  | sys slot => exact s.toWords_sys slot

/-- The word of a register in the image at a base. -/
def word (bytes : ByteArray) (base : Nat) (c : Cell) : UInt64 := Bytes.readWord bytes (base + c.offset) 8

/-- The words of an image are the fields of the state that is read from it. -/
lemma word_eq {bytes : ByteArray} {base : Nat} {s : State} (h : readImage bytes base = s) (c : Cell) :
    c.word bytes base = c.field s := by
  rw [word, c.offset_eq]
  exact readWord_of_readImage h (toWords_index s c)

/-- The words of different registers do not overlap. -/
lemma offset_apart {c c' : Cell} (h : c ≠ c') : c.offset + 8 ≤ c'.offset ∨ c'.offset + 8 ≤ c.offset := by
  have hne : c.index ≠ c'.index := fun heq => h (index_injective heq)
  rw [c.offset_eq, c'.offset_eq]
  omega

lemma offset_fits (c : Cell) : c.offset + 8 ≤ byteSize := by
  have hlt := c.index_lt
  rw [c.offset_eq, byteSize]
  omega

/-- Every byte of the image belongs to a word. -/
lemma exists_offset {j : Nat} (hj : j < byteSize) : ∃ c : Cell, c.offset ≤ j ∧ j < c.offset + 8 := by
  have hlt : j / 8 < wordCount := by
    rw [byteSize] at hj
    omega
  obtain ⟨c, hc⟩ := exists_index hlt
  refine ⟨c, ?_⟩
  rw [c.offset_eq, hc]
  omega

end Cell

/-! ### Reading and writing -/

/-- Every accessor of a state reads the word of its register. -/
structure ReadsWords (s : State) (word : Cell → UInt64) : Prop where
  x : ∀ (n : Fin 31) (w : Width), s.readX n w = word (.x n) &&& w.mask
  sp : s.readSp = word (.spEl s.spIndex)
  spEl : ∀ n, s.readSpEl n = word (.spEl (spBank n))
  elr : ∀ n, s.readElr n = word (.elr (bankIndex n))
  spsr : ∀ n, s.readSpsr n = word (.spsr (bankIndex n))
  flag : ∀ f, s.readFlag f = (word (.flag f) != 0)
  el : s.readEl = (word .el).toNat % 4
  spsel : s.readSpsel = (word .spsel &&& 1 == 1)
  daif : s.daif = word .daif
  sys : ∀ slot, s.readSlot slot = word (.sys slot)

lemma readsWords_field (s : State) : s.ReadsWords (Cell.field s) where
  x n _ := dif_pos n.isLt
  sp := rfl
  spEl _ := rfl
  elr _ := rfl
  spsr _ := rfl
  flag _ := rfl
  el := rfl
  spsel := rfl
  daif := rfl
  sys _ := rfl

variable {bytes : ByteArray} {base : Nat}

/-- An image that is read and written again is what it was. -/
lemma writeImage_readImage (h : base + byteSize ≤ bytes.size) :
    writeImage (readImage bytes base) bytes base = bytes := by
  apply Bytes.ext size_writeImage
  intro j hj
  by_cases hin : base ≤ j ∧ j < base + byteSize
  · obtain ⟨c, hle, hlt⟩ := Cell.exists_offset (j := j - base) (by omega)
    -- the word that the byte belongs to is the same before and after
    have hword : c.word (writeImage (readImage bytes base) bytes base) base = c.word bytes base :=
      (Cell.word_eq (readImage_writeImage h) c).trans (Cell.word_eq rfl c).symm
    have hbyte : j = base + c.offset + (j - base - c.offset) := by omega
    have hk : j - base - c.offset < 8 := by omega
    rw [hbyte, ← Bytes.byteAt_readWord (Nat.le_refl 8) hk, ← Bytes.byteAt_readWord (Nat.le_refl 8) hk]
    exact congrArg (Bytes.byteAt · _) hword
  · exact get_writeImage (by omega)

/-- The image of a state in memory is a faithful and consistent copy. The state is read back from it, an image that is
read is written back byte for byte, and no byte outside of it is written. The words at the offsets of the registers,
which are those where compiled code looks for them, are the fields that the accessors read. They do not overlap, and
they are the whole image. -/
theorem image_faithful (s : State) (h : base + byteSize ≤ bytes.size) :
    readImage (writeImage s bytes base) base = s ∧
    writeImage (readImage bytes base) bytes base = bytes ∧
    (writeImage s bytes base).size = bytes.size ∧
    (∀ j, j < base ∨ base + byteSize ≤ j → Bytes.get (writeImage s bytes base) j = Bytes.get bytes j) ∧
    (∀ c : Cell, c.word (writeImage s bytes base) base = c.field s ∧
      c.word bytes base = c.field (readImage bytes base)) ∧
    s.ReadsWords (Cell.word (writeImage s bytes base) base) ∧
    (∀ p, ∀ c ∈ Cell.ofPlace? p, Wasm.Codegen.fixedOffset p = c.offset) ∧
    (∀ c c' : Cell, c ≠ c' → c.offset + 8 ≤ c'.offset ∨ c'.offset + 8 ≤ c.offset) ∧
    (∀ c : Cell, c.offset + 8 ≤ byteSize) ∧
    ∀ j < byteSize, ∃ c : Cell, c.offset ≤ j ∧ j < c.offset + 8 := by
  have hword : Cell.word (writeImage s bytes base) base = Cell.field s :=
    funext fun c => Cell.word_eq (readImage_writeImage h) c
  refine ⟨readImage_writeImage h, writeImage_readImage h, size_writeImage, fun j hj => get_writeImage hj,
    fun c => ⟨congrFun hword c, Cell.word_eq rfl c⟩, ?_, fun p c hc => Cell.fixedOffset_eq hc,
    fun c c' hne => Cell.offset_apart hne, Cell.offset_fits, fun j hj => Cell.exists_offset hj⟩
  rw [hword]
  exact s.readsWords_field

/-- A state with its carry set, in a buffer that begins and ends before and behind its image: the word of the carry
is 1, and the byte behind the image is what it was. -/
theorem image_faithful_carry :
    let s := State.reset.writeFlag .c true
    let bytes := Bytes.set (Bytes.zeros 640) (64 + byteSize) 0xff
    64 + byteSize ≤ bytes.size ∧ readImage (writeImage s bytes 64) 64 = s ∧
      Bytes.readWord (writeImage s bytes 64) (64 + flagOffset .c) 8 = 1 ∧
      Bytes.get (writeImage s bytes 64) (64 + byteSize) = 0xff := by
  intro s bytes
  have hbehind : 64 + byteSize < (Bytes.zeros 640).size := by
    rw [Bytes.size_zeros]
    decide
  have hfits : 64 + byteSize ≤ bytes.size := (Bytes.size_set ..).symm ▸ Nat.le_of_lt hbehind
  obtain ⟨hread, -, -, houtside, hwords, -⟩ := image_faithful s hfits
  refine ⟨hfits, hread, (hwords (.flag .c)).1, (houtside _ (.inr (Nat.le_refl _))).trans ?_⟩
  exact Bytes.get_set_self hbehind 0xff

end Dynarec.Cpu.State
