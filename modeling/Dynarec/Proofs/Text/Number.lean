import Mathlib.Tactic.Common
import Dynarec.Text.Number

/-!
# Reading numbers back

A number that is written in a radix up to sixteen is read back as what it was, as far as it is below the bound
of the reader.
-/

namespace Dynarec.Text

variable {radix bound n d : Nat} {c : Char}

lemma digitValue_digitChar (hr : radix ≤ 16) (hd : d < radix) :
    digitValue? radix d.digitChar = some d := by
  have hvalue : ∀ d < 16, hexValue? (Nat.digitChar d) = some d := by decide
  rw [digitValue?, hvalue d (Nat.lt_of_lt_of_le hd hr), Option.filter_some, if_pos (decide_eq_true hd)]

/-- The characters of a number are digits. -/
lemma mem_toDigits (hr : 1 < radix) (h : c ∈ Nat.toDigits radix n) : ∃ d < radix, c = d.digitChar := by
  induction n using Nat.strongRecOn with
  | _ n ih =>
    rcases Nat.lt_or_ge n radix with hn | hn
    · rw [Nat.toDigits_of_lt_base hn, List.mem_singleton] at h
      exact ⟨n, hn, h⟩
    · rw [Nat.toDigits_of_base_le hr hn, List.mem_append, List.mem_singleton] at h
      rcases h with h | h
      · exact ih (n / radix) (Nat.div_lt_self (Nat.lt_of_lt_of_le (Nat.zero_lt_of_lt hr) hn) hr) h
      · exact ⟨n % radix, Nat.mod_lt _ (Nat.zero_lt_of_lt hr), h⟩

lemma foldlM_toDigits (hr : 1 < radix) (hr' : radix ≤ 16) (hn : n < bound) :
    (Nat.toDigits radix n).foldlM (appendDigit radix bound) 0 = .ok n := by
  induction n using Nat.strongRecOn with
  | _ n ih =>
    have hpos : 0 < radix := Nat.zero_lt_of_lt hr
    rcases Nat.lt_or_ge n radix with hlt | hle
    · rw [Nat.toDigits_of_lt_base hlt, List.foldlM_cons, appendDigit, digitValue_digitChar hr' hlt]
      dsimp only
      rw [Nat.zero_mul, Nat.zero_add, if_pos hn]
      rfl
    · have hdiv : n / radix < n := Nat.div_lt_self (Nat.lt_of_lt_of_le hpos hle) hr
      have hsum : n / radix * radix + n % radix = n := by
        rw [Nat.mul_comm]
        exact Nat.div_add_mod n radix
      rw [Nat.toDigits_of_base_le hr hle, List.foldlM_append, ih _ hdiv (Nat.lt_trans hdiv hn)]
      show [(n % radix).digitChar].foldlM (appendDigit radix bound) (n / radix) = .ok n
      rw [List.foldlM_cons, appendDigit, digitValue_digitChar hr' (Nat.mod_lt _ hpos)]
      dsimp only
      rw [hsum, if_pos hn]
      rfl

/-- A number is read back. -/
lemma readNumber_toDigits (hr : 1 < radix) (hr' : radix ≤ 16) (hn : n < bound) :
    readNumber radix bound (Nat.toDigits radix n) = .ok n := by
  have hplus : '+' ∉ Nat.toDigits radix n := by
    intro h
    obtain ⟨d, hd, hc⟩ := mem_toDigits hr h
    have : ∀ d < 16, '+' ≠ Nat.digitChar d := by decide
    exact this d (Nat.lt_of_lt_of_le hd hr') hc
  have hread := foldlM_toDigits hr hr' hn
  cases hdigits : Nat.toDigits radix n with
  | nil => exact absurd hdigits Nat.toDigits_ne_nil
  | cons c cs =>
    rw [hdigits] at hread hplus
    have hc : c ≠ '+' := fun h => hplus (h ▸ List.mem_cons_self)
    unfold readNumber
    split
    · next h => cases h
    · next h =>
      cases h
      exact absurd rfl hc
    · next h =>
      cases h
      exact absurd rfl hc
    · exact hread

/-- A number in hexadecimal is read back as a literal. -/
lemma readLiteral_hex (hn : n < bound) : readLiteral bound (hex n) = .ok n := by
  have hdigits : (hexDigits n).filter (· != '_') = hexDigits n := by
    rw [List.filter_eq_self]
    intro c hc
    obtain ⟨d, hd, rfl⟩ := mem_toDigits (by decide) hc
    have : ∀ d < 16, (Nat.digitChar d != '_') = true := by decide
    exact this d hd
  rw [readLiteral, hex, String.toList_ofList]
  show readNumber 16 bound ((hexDigits n).filter (· != '_')) = .ok n
  rw [hdigits]
  exact readNumber_toDigits (by decide) (Nat.le_refl 16) hn

end Dynarec.Text
