import Dynarec.Proofs.Cpu.Image
import Dynarec.Proofs.Cpu.Normalized
import Dynarec.Proofs.Ir.Eval
import Dynarec.Proofs.Memory

/-!
# Places in the register image

Every place outside the scratch locals is a word of the image. In the image of a normalized state a
place is read as its word, and writing it replaces its word by what the place keeps of the value.
-/

namespace Dynarec.Cpu.State

open Ir (Place)

/-- A place is one of the words of the image. -/
def InImage : Place → Prop
  | .x n => n < 31
  | .scratch _ => False
  | _ => True

/-- Which word of the image a place is. -/
def wordOf (s : State) : Place → Nat
  | .x n => n
  | .sp => 31 + s.spIndex.val
  | .spEl el => 31 + (spBank el).val
  | .elr bank => 35 + (bankIndex (bank.resolve s.readEl)).val
  | .spsr bank => 38 + (bankIndex (bank.resolve s.readEl)).val
  | .flag f => 41 + f.index.val
  | .el => 45
  | .spsel => 46
  | .daif => 47
  | .sys slot => 48 + slot.val
  | .scratch _ => 0

/-- A flag is what its word is, which is 0 or 1. -/
lemma Normalized.flag_eq {s : State} (hs : s.Normalized) (f : Flag) :
    (s.readFlag f).toUInt64 = s.flags.get f.index := by
  change (s.flags.get f.index != 0).toUInt64 = s.flags.get f.index
  obtain h | h := hs.flags f
  · rw [h]
    rfl
  · rw [h]
    rfl

lemma Normalized.spsel_and {s : State} (hs : s.Normalized) : s.spsel &&& 1 = s.spsel := by
  apply UInt64.toNat_inj.1
  rw [UInt64.toNat_and, UInt64.toNat_one, Nat.and_one_is_mod]
  exact Nat.mod_eq_of_lt hs.spsel_lt

/-- What a word keeps of a value that is written to its place. -/
def kept (v : UInt64) : Place → UInt64
  | .flag _ => (v != 0).toUInt64
  | .el => v &&& 3
  | .spsel => v &&& 1
  | .daif => v &&& SysReg.daifMask
  | _ => v

variable (s : State) {p : Place}

lemma wordOf_lt (h : InImage p) : s.wordOf p < wordCount := by
  cases p with
  | x n => exact Nat.lt_trans h (by decide)
  | scratch l => exact h.elim
  | _ =>
    simp only [wordOf, wordCount, SysReg.slotCount]
    omega

/-- A bit as a word. -/
lemma toUInt64_bit (v : UInt64) : (v &&& 1 == 1).toUInt64 = v &&& 1 := by
  have h : (v &&& 1).toNat < 2 := and_lt (by decide)
  obtain h | h : v &&& 1 = 0 ∨ v &&& 1 = 1 := by
    simp only [← UInt64.toNat_inj, UInt64.toNat_zero, UInt64.toNat_one]
    omega
  · rw [h]
    rfl
  · rw [h]
    rfl

/-- Writing a place replaces its word. -/
lemma toWords_writePlace (h : InImage p) (v : UInt64) :
    (s.writePlace p v).toWords = s.toWords.set (s.wordOf p) (kept v p) (s.wordOf_lt h) := by
  cases p with
  | x n =>
    have hn : n < 31 := h
    simp only [writePlace, writeX, dif_pos hn, Width.and_mask_w64, wordOf, kept, toWords, Vector.set_append]
    grind
  | sp =>
    simp only [writePlace, writeSp, wordOf, kept, toWords, Vector.set_append]
    grind
  | spEl el =>
    simp only [writePlace, writeSpEl, wordOf, kept, toWords, Vector.set_append]
    grind
  | elr bank =>
    simp only [writePlace, writeElr, wordOf, kept, toWords, Vector.set_append]
    grind
  | spsr bank =>
    simp only [writePlace, writeSpsr, wordOf, kept, toWords, Vector.set_append]
    grind
  | flag f =>
    simp only [writePlace, writeFlag, wordOf, kept, toWords, Vector.set_append]
    grind
  | el =>
    simp only [writePlace, writeEl, wordOf, kept, toWords, Vector.set_append]
    rfl
  | spsel =>
    simp only [writePlace, writeSpsel, wordOf, kept, toWords, Vector.set_append, toUInt64_bit]
    rfl
  | daif =>
    simp only [writePlace, writeDaif, wordOf, kept, toWords, Vector.set_append]
    rfl
  | sys slot =>
    simp only [writePlace, writeSlot, wordOf, kept, toWords, Vector.set_append]
    grind
  | scratch l => exact h.elim

/-- Reading a place gives its word, in a normalized state. -/
lemma getElem?_wordOf (h : InImage p) (hs : s.Normalized) :
    s.toWords[s.wordOf p]? = some (s.readPlace p) := by
  cases p with
  | x n =>
    have hn : n < 31 := h
    rw [readPlace, readX, dif_pos hn, Width.and_mask_w64]
    exact s.toWords_x ⟨n, hn⟩
  | sp => exact s.toWords_spEl s.spIndex
  | spEl el => exact s.toWords_spEl (spBank el)
  | elr bank => exact s.toWords_elrEl _
  | spsr bank => exact s.toWords_spsrEl _
  | flag f =>
    rw [readPlace, hs.flag_eq]
    exact s.toWords_flags f.index
  | el =>
    rw [readPlace, hs.readEl_eq, UInt64.ofNat_toNat]
    exact s.toWords_el
  | spsel =>
    rw [readPlace, readSpsel, toUInt64_bit, hs.spsel_and]
    exact s.toWords_spsel
  | daif => exact s.toWords_daif
  | sys slot => exact s.toWords_sys slot
  | scratch l => exact h.elim

/-- A state is that of its words. -/
lemma toWords_inj {s s' : State} (h : s.toWords = s'.toWords) : s = s' := by
  unfold toWords at h
  obtain ⟨h, hsys⟩ := Vector.append_inj h
  obtain ⟨h, hrest⟩ := Vector.append_inj h
  obtain ⟨h, hflags⟩ := Vector.append_inj h
  obtain ⟨h, hspsr⟩ := Vector.append_inj h
  obtain ⟨h, helr⟩ := Vector.append_inj h
  obtain ⟨hx, hsp⟩ := Vector.append_inj h
  cases s
  cases s'
  simp_all

/-- A word of an image that is read. -/
lemma getElem_readImage (bytes : ByteArray) (base : Nat) {i : Nat} (hi : i < wordCount) :
    (readImage bytes base).toWords[i] = Bytes.readWord bytes (base + i * 8) 8 := by
  simp only [readImage, toWords_ofWords, Vector.getElem_ofFn]

/-- An image depends on its bytes only. -/
lemma readImage_congr {bytes bytes' : ByteArray} {base : Nat}
    (h : ∀ j, base ≤ j → j < base + byteSize → Bytes.get bytes' j = Bytes.get bytes j) :
    readImage bytes' base = readImage bytes base := by
  unfold readImage
  congr 2
  funext i
  apply Bytes.readWord_congr
  intro j hle hlt
  have := i.isLt
  apply h
  · omega
  · simp only [byteSize, wordCount] at *
    omega

/-- Writing a word of an image replaces it. -/
lemma toWords_writeWord {bytes : ByteArray} {base i : Nat} (hfits : base + byteSize ≤ bytes.size)
    (hi : i < wordCount) (v : UInt64) :
    (readImage (Bytes.writeWord bytes (base + i * 8) 8 v) base).toWords =
      (readImage bytes base).toWords.set i v := by
  apply Vector.ext
  intro j hj
  rw [getElem_readImage, Vector.getElem_set]
  have hend : base + i * 8 + 8 ≤ bytes.size := by
    simp only [byteSize, wordCount] at *
    omega
  split
  · next hij =>
    subst hij
    rw [Bytes.readWord_writeWord _ hend (by decide)]
    exact Width.and_mask_w64 v
  · next hij =>
    rw [getElem_readImage]
    exact Bytes.readWord_congr fun k hle hlt => Bytes.get_writeWord_of_outside (by omega) _ _

/-- Writing the word of a place in the image of a state writes the place in the state. -/
lemma readImage_writeWord {bytes : ByteArray} {base : Nat} {p : Place}
    (hfits : base + byteSize ≤ bytes.size) (h : InImage p) (hread : readImage bytes base = s) (v : UInt64) :
    readImage (Bytes.writeWord bytes (base + s.wordOf p * 8) 8 (kept v p)) base = s.writePlace p v := by
  apply toWords_inj
  rw [toWords_writeWord hfits (s.wordOf_lt h), hread, s.toWords_writePlace h]

/-! ### Writing images -/

section
variable (bytes : ByteArray) (base : Nat)

/-- Write words one after the other, from the one of a number on. -/
abbrev writeWords (ws : List UInt64) (k : Nat) : ByteArray :=
  (ws.zipIdx k).foldl (fun bytes (w, i) => Bytes.writeWord bytes (base + i * 8) 8 w) bytes

lemma size_writeWords (ws : List UInt64) (k : Nat) : (writeWords bytes base ws k).size = bytes.size := by
  induction ws generalizing bytes k with
  | nil => rfl
  | cons w ws ih =>
    rw [writeWords, List.zipIdx_cons, List.foldl_cons]
    exact (ih _ (k + 1)).trans (Bytes.size_writeWord ..)

/-- Bytes outside of the words stay as they are. -/
lemma get_writeWords (ws : List UInt64) (k : Nat) {j : Nat}
    (h : j < base + k * 8 ∨ base + (k + ws.length) * 8 ≤ j) :
    Bytes.get (writeWords bytes base ws k) j = Bytes.get bytes j := by
  induction ws generalizing bytes k with
  | nil => rfl
  | cons w ws ih =>
    rw [List.length_cons] at h
    rw [writeWords, List.zipIdx_cons, List.foldl_cons]
    exact (ih _ (k + 1) (by omega)).trans (Bytes.get_writeWord_of_outside (by omega) _ _)

/-- The words are read again. -/
lemma readWord_writeWords (ws : List UInt64) (k : Nat) (hfits : base + (k + ws.length) * 8 ≤ bytes.size)
    {n : Nat} (hn : n < ws.length) : Bytes.readWord (writeWords bytes base ws k) (base + (k + n) * 8) 8 = ws[n] := by
  induction ws generalizing bytes k n with
  | nil => cases hn
  | cons w ws ih =>
    rw [List.length_cons] at hfits hn
    rw [writeWords, List.zipIdx_cons, List.foldl_cons]
    cases n with
    | zero =>
      have hword : Bytes.readWord (Bytes.writeWord bytes (base + k * 8) 8 w) (base + k * 8) 8 = w :=
        (Bytes.readWord_writeWord bytes (by omega) (by decide) w).trans (Width.and_mask_w64 w)
      refine Eq.trans (Bytes.readWord_congr fun j _ hj => ?_) hword
      exact get_writeWords _ base ws (k + 1) (by omega)
    | succ n =>
      have hsize : (Bytes.writeWord bytes (base + k * 8) 8 w).size = bytes.size := Bytes.size_writeWord ..
      have hrest := ih (Bytes.writeWord bytes (base + k * 8) 8 w) (k + 1) (by omega) (n := n) (by omega)
      rw [show k + 1 + n = k + (n + 1) by omega] at hrest
      exact hrest

variable {bytes base} {s : State}

lemma size_writeImage : (writeImage s bytes base).size = bytes.size := size_writeWords ..

/-- Bytes outside of an image stay as they are. -/
lemma get_writeImage {j : Nat} (h : j < base ∨ base + byteSize ≤ j) :
    Bytes.get (writeImage s bytes base) j = Bytes.get bytes j := by
  apply get_writeWords
  rw [Vector.length_toList]
  simp only [byteSize, wordCount] at *
  omega

/-- The image of a state reads as the state. -/
lemma readImage_writeImage (hfits : base + byteSize ≤ bytes.size) :
    readImage (writeImage s bytes base) base = s := by
  apply toWords_inj
  apply Vector.ext
  intro i hi
  have hlen : s.toWords.toList.length = wordCount := Vector.length_toList
  have hword := readWord_writeWords bytes base s.toWords.toList 0 (by
    simp only [byteSize, wordCount] at *
    omega) (n := i) (by omega)
  rw [getElem_readImage]
  rw [Nat.zero_add, Vector.getElem_toList] at hword
  exact hword

end

end Dynarec.Cpu.State
