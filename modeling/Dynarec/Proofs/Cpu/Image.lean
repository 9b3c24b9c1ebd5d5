import Mathlib.Tactic.Common
import Dynarec.Cpu.Image

/-!
# Words of the register image

Which word of the image holds which register, and that an image read from bytes has the words that
are in them.
-/

namespace Dynarec.Cpu.State

variable (s : State)

/-- The register that a word of the image holds. -/
lemma toWords_getElem? (i : Nat) : s.toWords[i]? =
    if i < 31 then s.x[i]?
    else if i < 35 then s.spEl[i - 31]?
    else if i < 38 then s.elrEl[i - 35]?
    else if i < 41 then s.spsrEl[i - 38]?
    else if i < 45 then s.flags[i - 41]?
    else if i < 48 then #v[s.el, s.spsel, s.daif][i - 45]?
    else s.sys[i - 48]? := by
  change (s.x ++ s.spEl ++ s.elrEl ++ s.spsrEl ++ s.flags ++ #v[s.el, s.spsel, s.daif] ++
    s.sys)[i]? = _
  simp only [Vector.getElem?_append]
  grind

lemma toWords_spEl (i : Fin 4) : s.toWords[31 + i.val]? = some s.spEl[i] := by
  have := i.isLt
  rw [toWords_getElem?, if_neg (by omega), if_pos (by omega), Nat.add_sub_cancel_left]
  exact Vector.getElem?_eq_getElem i.isLt

lemma toWords_elrEl (i : Fin 3) : s.toWords[35 + i.val]? = some s.elrEl[i] := by
  have := i.isLt
  rw [toWords_getElem?, if_neg (by omega), if_neg (by omega), if_pos (by omega),
    Nat.add_sub_cancel_left]
  exact Vector.getElem?_eq_getElem i.isLt

lemma toWords_spsrEl (i : Fin 3) : s.toWords[38 + i.val]? = some s.spsrEl[i] := by
  have := i.isLt
  rw [toWords_getElem?, if_neg (by omega), if_neg (by omega), if_neg (by omega),
    if_pos (by omega), Nat.add_sub_cancel_left]
  exact Vector.getElem?_eq_getElem i.isLt

lemma toWords_x (i : Fin 31) : s.toWords[i.val]? = some s.x[i] := by
  rw [toWords_getElem?, if_pos i.isLt]
  exact Vector.getElem?_eq_getElem i.isLt

lemma toWords_flags (i : Fin 4) : s.toWords[41 + i.val]? = some s.flags[i] := by
  have := i.isLt
  rw [toWords_getElem?, if_neg (by omega), if_neg (by omega), if_neg (by omega), if_neg (by omega),
    if_pos (by omega), Nat.add_sub_cancel_left]
  exact Vector.getElem?_eq_getElem i.isLt

lemma toWords_sys (i : Fin SysReg.slotCount) : s.toWords[48 + i.val]? = some (s.readSlot i) := by
  rw [toWords_getElem?, if_neg (by omega), if_neg (by omega), if_neg (by omega), if_neg (by omega),
    if_neg (by omega), if_neg (by omega), Nat.add_sub_cancel_left]
  exact Vector.getElem?_eq_getElem i.isLt

lemma toWords_el : s.toWords[45]? = some s.el := by
  rw [toWords_getElem?]
  rfl

lemma toWords_spsel : s.toWords[46]? = some s.spsel := by
  rw [toWords_getElem?]
  rfl

lemma toWords_daif : s.toWords[47]? = some s.daif := by
  rw [toWords_getElem?]
  rfl

lemma getElem_run (words : Vector UInt64 wordCount) {start len : Nat}
    (h : start + len ≤ wordCount) {i : Nat} (hi : i < len) :
    (run words start len h)[i] = words[start + i] := by
  rw [run, Vector.getElem_ofFn]
  rfl

/-- An image has the words that it is made from. -/
lemma toWords_ofWords (words : Vector UInt64 wordCount) : (ofWords words).toWords = words := by
  have hrun : ∀ (start len : Nat) (h : start + len ≤ wordCount) (i : Nat), start ≤ i →
      i < start + len → (run words start len h)[i - start]? = words[i]? := by
    intro start len h i hle hlt
    rw [Vector.getElem?_eq_getElem (show i - start < len by omega),
      Vector.getElem?_eq_getElem (show i < wordCount by omega)]
    simp only [getElem_run, Nat.add_sub_cancel' hle]
  apply Vector.ext
  intro i hi
  apply Option.some.inj
  rw [← Vector.getElem?_eq_getElem hi, ← Vector.getElem?_eq_getElem hi, toWords_getElem?]
  split_ifs with h₁ h₂ h₃ h₄ h₅ h₆
  · exact hrun 0 31 (by decide) i (Nat.zero_le i) (by omega)
  · exact hrun 31 4 (by decide) i (by omega) (by omega)
  · exact hrun 35 3 (by decide) i (by omega) (by omega)
  · exact hrun 38 3 (by decide) i (by omega) (by omega)
  · exact hrun 41 4 (by decide) i (by omega) (by omega)
  · obtain rfl | rfl | rfl : i = 45 ∨ i = 46 ∨ i = 47 := by omega
    all_goals rfl
  · exact hrun 48 SysReg.slotCount (by decide) i (by omega) hi

/-- The bytes of an image are its words. -/
lemma readWord_of_readImage {bytes : ByteArray} {base : Nat} {s : State}
    (h : readImage bytes base = s) {i : Nat} {w : UInt64} (hw : s.toWords[i]? = some w) :
    Bytes.readWord bytes (base + i * 8) 8 = w := by
  subst h
  obtain ⟨hi, rfl⟩ := Vector.getElem?_eq_some_iff.1 hw
  simp only [readImage, toWords_ofWords, Vector.getElem_ofFn]

end Dynarec.Cpu.State
