import Mathlib.Data.Nat.Digits.Defs
import Dynarec.Proofs.Memory

/-!
# Words as bytes

A word of some bytes is the number of which these are the digits to base 256, the least significant one first.
Writing it gives every address its digit, so a word that is read and written again changes nothing.
-/

namespace Dynarec.Bytes

variable {bytes : ByteArray} {i j k count : Nat} {v : UInt64}

/-- A byte of a word, the least significant one being byte 0. -/
def byteAt (v : UInt64) (k : Nat) : UInt8 := .ofNat (v.toNat / 256 ^ k)

lemma byteAt_zero : byteAt v 0 = v.toUInt8 := by
  rw [byteAt, Nat.pow_zero, Nat.div_one]
  rfl

lemma byteAt_succ : byteAt v (k + 1) = byteAt (v >>> 8) k := by
  have hshift : (v >>> 8).toNat = v.toNat / 256 := by
    rw [UInt64.toNat_shiftRight, Nat.shiftRight_eq_div_pow]
    rfl
  rw [byteAt, byteAt, hshift, Nat.div_div_eq_div_mul, Nat.pow_succ']

/-! ### Writing -/

/-- Every address that is written has its byte of the word. -/
lemma get_writeWord_of_inside (hle : i ≤ j) (hlt : j < i + count) (hfits : j < bytes.size) :
    get (writeWord bytes i count v) j = byteAt v (j - i) := by
  induction count generalizing bytes i v with
  | zero => omega
  | succ count ih =>
    rw [writeWord]
    by_cases hij : j = i
    · subst hij
      rw [get_writeWord_of_outside (.inl (Nat.lt_succ_self j)), get_set_self hfits, Nat.sub_self, byteAt_zero]
    · have hsub : j - i = j - (i + 1) + 1 := by omega
      rw [ih (by omega) (by omega) (by rwa [size_set]), hsub, byteAt_succ]

/-! ### Reading -/

/-- A byte below a word is its last digit. -/
lemma toNat_byte_or_shiftLeft {w : UInt64} (b : UInt8) (h : w.toNat < 256 ^ 7) :
    (b.toUInt64 ||| w <<< 8).toNat = b.toNat + 256 * w.toNat := by
  have hb : b.toNat < 2 ^ 8 := b.toNat_lt
  have hshift : (w <<< 8).toNat = w.toNat <<< 8 := by
    rw [UInt64.toNat_shiftLeft]
    apply Nat.mod_eq_of_lt
    rw [show (8 : UInt64).toNat % 64 = 8 from rfl, Nat.shiftLeft_eq]
    omega
  rw [UInt64.toNat_or, hshift, UInt8.toNat_toUInt64, Nat.or_comm, ← Nat.shiftLeft_add_eq_or_of_lt hb,
    Nat.shiftLeft_eq]
  omega

/-- The first byte that is read is the last digit, and the word has as many digits as it has bytes. -/
lemma toNat_readWord_succ (h : count < 8) : (readWord bytes i (count + 1)).toNat =
      (get bytes i).toNat + 256 * (readWord bytes (i + 1) count).toNat ∧
    (readWord bytes (i + 1) count).toNat < 256 ^ count := by
  induction count generalizing i with
  | zero => exact ⟨toNat_byte_or_shiftLeft (get bytes i) (by decide : (0 : UInt64).toNat < 256 ^ 7), Nat.one_pos⟩
  | succ count ih =>
    obtain ⟨hdigit, hrest⟩ := ih (i := i + 1) (Nat.lt_of_succ_lt h)
    have hbyte : (get bytes (i + 1)).toNat < 256 := (get bytes (i + 1)).toNat_lt
    have hlt : (readWord bytes (i + 1) (count + 1)).toNat < 256 ^ (count + 1) := by
      rw [hdigit, Nat.pow_succ]
      omega
    have hle : 256 ^ (count + 1) ≤ 256 ^ 7 := Nat.pow_le_pow_right (by decide) (Nat.le_of_lt_succ h)
    exact ⟨toNat_byte_or_shiftLeft (get bytes i) (Nat.lt_of_lt_of_le hlt hle), hlt⟩

/-- The word that is read has the bytes as its digits. -/
lemma toNat_readWord (h : count ≤ 8) : (readWord bytes i count).toNat =
    Nat.ofDigits 256 ((List.range count).map fun k => (get bytes (i + k)).toNat) := by
  induction count generalizing i with
  | zero => rfl
  | succ count ih =>
    rw [(toNat_readWord_succ h).1, ih (Nat.le_of_succ_le h), List.range_succ_eq_map, List.map_cons, List.map_map,
      Nat.ofDigits_cons]
    congr 3
    apply List.map_congr_left
    intro k _
    show (get bytes (i + 1 + k)).toNat = (get bytes (i + (k + 1))).toNat
    rw [Nat.add_right_comm, Nat.add_assoc]

/-- The bytes of a word that is read are those that it is read from. -/
lemma byteAt_readWord (h : count ≤ 8) (hk : k < count) :
    byteAt (readWord bytes i count) k = get bytes (i + k) := by
  induction count generalizing i k with
  | zero => cases hk
  | succ count ih =>
    have hdigit : (readWord bytes i (count + 1)).toNat = _ := (toNat_readWord_succ h).1
    have hbyte : (get bytes i).toNat < 256 := (get bytes i).toNat_lt
    cases k with
    | zero =>
      apply UInt8.toNat_inj.1
      rw [byteAt, Nat.pow_zero, Nat.div_one, hdigit, UInt8.toNat_ofNat', Nat.add_mul_mod_self_left]
      exact Nat.mod_eq_of_lt hbyte
    | succ k =>
      have hdiv : (readWord bytes i (count + 1)).toNat / 256 = (readWord bytes (i + 1) count).toNat := by
        rw [hdigit]
        omega
      rw [byteAt, Nat.pow_succ', ← Nat.div_div_eq_div_mul, hdiv]
      refine (ih (Nat.le_of_succ_le h) (Nat.lt_of_succ_lt_succ hk)).trans ?_
      rw [Nat.add_right_comm, Nat.add_assoc]

end Dynarec.Bytes
