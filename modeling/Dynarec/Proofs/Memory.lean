import Mathlib.Tactic.Common
import Dynarec.Memory
import Dynarec.Proofs.Word.Bits

/-!
# Writing memory

A write keeps the size of memory and the bytes outside of it, and one that fails changes nothing. A read
depends on the bytes that it covers only.
-/

namespace Dynarec

lemma Bytes.size_set (bytes : ByteArray) (i : Nat) (b : UInt8) :
    (Bytes.set bytes i b).size = bytes.size := by
  unfold Bytes.set
  split
  · exact Array.size_set _
  · rfl

lemma Bytes.size_writeWord (bytes : ByteArray) (i count : Nat) (value : UInt64) :
    (Bytes.writeWord bytes i count value).size = bytes.size := by
  induction count generalizing bytes i value with
  | zero => rfl
  | succ count ih => rw [Bytes.writeWord, ih, Bytes.size_set]

lemma Bytes.get_eq_getElem? (bytes : ByteArray) (j : Nat) : Bytes.get bytes j = bytes.data[j]?.getD 0 := by
  unfold Bytes.get
  split
  · next h =>
    rw [Array.getElem?_eq_getElem h]
    rfl
  · next h => rw [Array.getElem?_eq_none (Nat.not_lt.1 h), Option.getD_none]

lemma Bytes.size_zeros (size : Nat) : (Bytes.zeros size).size = size := by
  rw [ByteArray.size, Bytes.data_zeros, Array.size_replicate]

lemma Bytes.get_zeros (size j : Nat) : Bytes.get (Bytes.zeros size) j = 0 := by
  rw [Bytes.get_eq_getElem?, Bytes.data_zeros, Array.getElem?_replicate]
  split
  · rfl
  · rfl

lemma Bytes.get_set_of_ne {i j : Nat} (h : i ≠ j) (bytes : ByteArray) (b : UInt8) :
    Bytes.get (Bytes.set bytes i b) j = Bytes.get bytes j := by
  unfold Bytes.set
  split
  · next hi =>
    have hsize : (bytes.set i b hi).size = bytes.size := Array.size_set hi
    unfold Bytes.get
    simp only [hsize]
    split
    · next hj => exact Array.getElem_set_ne hi hj h
    · rfl
  · rfl

/-- A write leaves the bytes outside of it as they are. -/
lemma Bytes.get_writeWord_of_outside {i j count : Nat} (h : j < i ∨ i + count ≤ j) (bytes : ByteArray)
    (value : UInt64) : Bytes.get (Bytes.writeWord bytes i count value) j = Bytes.get bytes j := by
  induction count generalizing bytes i value with
  | zero => rfl
  | succ count ih =>
    rw [Bytes.writeWord, ih (by omega), Bytes.get_set_of_ne (by omega)]

/-- A read depends on the bytes that it covers only. -/
lemma Bytes.readWord_congr {i count : Nat} {bytes bytes' : ByteArray}
    (h : ∀ j, i ≤ j → j < i + count → Bytes.get bytes' j = Bytes.get bytes j) :
    Bytes.readWord bytes' i count = Bytes.readWord bytes i count := by
  induction count generalizing i with
  | zero => rfl
  | succ count ih =>
    rw [Bytes.readWord, Bytes.readWord, h i (Nat.le_refl i) (by omega),
      ih fun j hle hlt => h j (by omega) (by omega)]

lemma Bytes.get_set_self {i : Nat} {bytes : ByteArray} (h : i < bytes.size) (b : UInt8) :
    Bytes.get (Bytes.set bytes i b) i = b := by
  have hsize : (bytes.set i b h).size = bytes.size := Array.size_set h
  rw [Bytes.set, dif_pos h, Bytes.get, dif_pos (by rw [hsize]; exact h)]
  exact Array.getElem_set_self _

/-- A write that does to one array what it does to another one that agrees with it below a bound. -/
lemma Bytes.get_writeWord_congr {i count r : Nat} {bytes bytes' : ByteArray} (hi : i + count ≤ r)
    (hr : r ≤ bytes.size) (hr' : r ≤ bytes'.size)
    (h : ∀ j < r, Bytes.get bytes' j = Bytes.get bytes j) (value : UInt64) :
    ∀ j < r, Bytes.get (Bytes.writeWord bytes' i count value) j =
      Bytes.get (Bytes.writeWord bytes i count value) j := by
  induction count generalizing bytes bytes' i value with
  | zero => exact h
  | succ count ih =>
    rw [Bytes.writeWord, Bytes.writeWord]
    refine ih (by omega) ?_ ?_ (fun j hj => ?_) _
    · rwa [Bytes.size_set]
    · rwa [Bytes.size_set]
    · by_cases hij : i = j
      · subst hij
        rw [Bytes.get_set_self (by omega), Bytes.get_set_self (by omega)]
      · rw [Bytes.get_set_of_ne hij, Bytes.get_set_of_ne hij, h j hj]

/-- Reading a word that was written gives its low bytes. -/
lemma Bytes.readWord_writeWord {i count : Nat} (bytes : ByteArray) (hi : i + count ≤ bytes.size)
    (hcount : 8 * count ≤ 64) (value : UInt64) :
    Bytes.readWord (Bytes.writeWord bytes i count value) i count = value &&& Bits.ones (8 * count) := by
  induction count generalizing bytes i value with
  | zero => exact (UInt64.and_zero).symm
  | succ count ih =>
    have hlow : Bytes.get (Bytes.writeWord (Bytes.set bytes i value.toUInt8) (i + 1) count (value >>> 8)) i =
        value.toUInt8 := by
      rw [Bytes.get_writeWord_of_outside (by omega), Bytes.get_set_self (by omega)]
    have hsize : i + 1 + count ≤ (Bytes.set bytes i value.toUInt8).size := by
      rw [Bytes.size_set]
      omega
    have hrest := ih (Bytes.set bytes i value.toUInt8) hsize (by omega) (value >>> 8)
    rw [Bytes.writeWord, Bytes.readWord, hlow, hrest]
    apply Bits.eq_of_bit
    intro j hj
    have hbyte : Bits.bit value.toUInt8.toUInt64 j = (decide (j < 8) && Bits.bit value j) := by
      rw [Bits.bit_eq_testBit, UInt8.toNat_toUInt64, UInt64.toNat_toUInt8]
      exact Nat.testBit_mod_two_pow _ 8 j
    rw [Bits.bit_or, hbyte, show (8 : UInt64) = UInt64.ofNat 8 from rfl, Bits.bit_shiftLeft (by decide),
      Bits.bit_and, Bits.bit_shiftRight (by decide), Bits.bit_ones, Bits.bit_and, Bits.bit_ones]
    by_cases hlow : j < 8
    · have hin : j < 8 * (count + 1) := by omega
      have hle : ¬ 8 ≤ j := by omega
      simp [hj, hlow, hin, hle]
    · have hsub : 8 + (j - 8) = j := by omega
      have hin : j - 8 < 8 * count ↔ j < 8 * (count + 1) := by omega
      have hle : 8 ≤ j := by omega
      have hlt : j - 8 < 64 := by omega
      simp [hj, hlow, hsub, hin, hle, hlt]

lemma Bytes.get_extract {bytes : ByteArray} {j r : Nat} (hj : j < r) :
    Bytes.get (bytes.extract 0 r) j = Bytes.get bytes j := by
  have hsize : (bytes.extract 0 r).size = min r bytes.size := ByteArray.size_extract
  unfold Bytes.get
  by_cases hlt : j < bytes.size
  · rw [dif_pos hlt, dif_pos (by omega), ByteArray.getElem_extract]
    simp only [Nat.zero_add]
  · rw [dif_neg hlt, dif_neg (by omega)]

/-- Byte arrays of one size with the same bytes are equal. -/
lemma Bytes.ext {bytes bytes' : ByteArray} (hsize : bytes.size = bytes'.size)
    (h : ∀ j < bytes.size, Bytes.get bytes j = Bytes.get bytes' j) : bytes = bytes' := by
  refine ByteArray.ext_getElem hsize fun j hj hj' => ?_
  have hget := h j hj
  rwa [Bytes.get, Bytes.get, dif_pos hj, dif_pos hj'] at hget

/-- The first bytes of arrays of one size that agree there are the same. -/
lemma Bytes.extract_congr {bytes bytes' : ByteArray} {r : Nat} (hsize : bytes'.size = bytes.size)
    (h : ∀ j < r, Bytes.get bytes' j = Bytes.get bytes j) : bytes'.extract 0 r = bytes.extract 0 r := by
  apply Bytes.ext
  · rw [ByteArray.size_extract, ByteArray.size_extract, hsize]
  · intro j hj
    rw [ByteArray.size_extract] at hj
    rw [Bytes.get_extract (by omega), Bytes.get_extract (by omega), h j (by omega)]

/-- A write within the first bytes is one of them alone. -/
lemma Bytes.extract_writeWord {bytes : ByteArray} {i count r : Nat} (h : i + count ≤ r) (hr : r ≤ bytes.size)
    (value : UInt64) :
    (Bytes.writeWord bytes i count value).extract 0 r = Bytes.writeWord (bytes.extract 0 r) i count value := by
  have hsize : (bytes.extract 0 r).size = r := by
    rw [ByteArray.size_extract]
    omega
  apply Bytes.ext
  · rw [ByteArray.size_extract, Bytes.size_writeWord, Bytes.size_writeWord, hsize]
    omega
  · intro j hj
    rw [ByteArray.size_extract] at hj
    rw [Bytes.get_extract (by omega)]
    exact (Bytes.get_writeWord_congr h hr (Nat.le_of_eq hsize.symm) (fun j hj => Bytes.get_extract hj) value j
      (by omega)).symm

namespace Memory

variable {addr value : UInt64} {size : AccessSize} {mem mem' : Memory}

lemma size_write {u : Unit} (h : write addr size value mem = .ok u mem') : mem'.size = mem.size := by
  unfold write at h
  split at h
  · cases h
    exact Bytes.size_writeWord _ _ _ _
  · cases h

lemma write_error {e : Error} (h : write addr size value mem = .error e mem') : mem' = mem := by
  unfold write at h
  split at h
  · cases h
  · cases h
    rfl

end Memory

end Dynarec
