import Mathlib.Data.List.Induction
import Dynarec.Proofs.Run
import Dynarec.Proofs.Text.Number

/-!
# Decimal numbers

In radix ten the reader of numbers takes decimal digits, of which there is at least one, and a plus sign in
front of them; it takes them for the number that they denote.
-/

namespace Dynarec.Text

variable {bound n d v : Nat} {c : Char} {cs : List Char}

/-- A text of decimal digits denotes a number, and no digits denote zero. -/
inductive Decimal : List Char → Nat → Prop where
  | nil : Decimal [] 0
  | snoc {cs : List Char} {v d : Nat} :
      Decimal cs v → d < 10 → Decimal (cs ++ [d.digitChar]) (v * 10 + d)

/-- A text denotes a number by at least one decimal digit, and may have a plus sign in front. -/
inductive Numeral : List Char → Nat → Prop where
  | plain {cs : List Char} {n : Nat} : cs ≠ [] → Decimal cs n → Numeral cs n
  | plus {cs : List Char} {n : Nat} : cs ≠ [] → Decimal cs n → Numeral ('+' :: cs) n

lemma digitValue_ten : digitValue? 10 c = some d ↔ d < 10 ∧ c = d.digitChar := by
  constructor
  · intro h
    rw [digitValue?, Option.filter_eq_some_iff, decide_eq_true_iff] at h
    obtain ⟨hvalue, hd⟩ := h
    refine ⟨hd, ?_⟩
    have hchar : ∀ d < 10, (Nat.digitChar d).toNat = d + 48 := by decide
    unfold hexValue? at hvalue
    split at hvalue
    · next hc =>
      cases hvalue
      have h0 : 48 ≤ c.toNat := hc.1
      apply Char.toNat_inj.1
      rw [hchar _ hd]
      exact (Nat.sub_add_cancel h0).symm
    · -- a letter counts ten or more
      split at hvalue
      · cases hvalue
        omega
      · split at hvalue
        · cases hvalue
          omega
        · cases hvalue
  · intro h
    rw [h.2]
    exact digitValue_digitChar (by decide) h.1

lemma appendDigit_ten : appendDigit 10 bound v c = .ok n ↔
    ∃ d < 10, c = d.digitChar ∧ n = v * 10 + d ∧ n < bound := by
  constructor
  · intro h
    unfold appendDigit at h
    split at h
    · cases h
    · next d hd =>
      obtain ⟨hlt, hc⟩ := digitValue_ten.1 hd
      split at h
      · next hn =>
        cases h
        exact ⟨d, hlt, hc, rfl, hn⟩
      · cases h
  · intro ⟨d, hd, hc, hn, hbound⟩
    rw [appendDigit, digitValue_ten.2 ⟨hd, hc⟩]
    dsimp only
    rw [← hn, if_pos hbound]

lemma Decimal.append_iff :
    Decimal (cs ++ [c]) n ↔ ∃ v, Decimal cs v ∧ ∃ d < 10, c = d.digitChar ∧ n = v * 10 + d := by
  constructor
  · intro h
    generalize htext : cs ++ [c] = text at h
    cases h with
    | nil => cases cs <;> cases htext
    | @snoc cs v d hv hd =>
      obtain ⟨rfl, hc⟩ := List.append_inj' htext rfl
      cases hc
      exact ⟨v, hv, d, hd, rfl, rfl⟩
  · intro ⟨v, hv, d, hd, hc, hn⟩
    rw [hc, hn]
    exact .snoc hv hd

lemma Decimal.nil_iff : Decimal [] n ↔ n = 0 := by
  constructor
  · intro h
    generalize htext : [] = text at h
    cases h with
    | nil => rfl
    | snoc => exact absurd htext.symm (List.append_ne_nil_of_right_ne_nil _ (List.cons_ne_nil _ []))
  · intro h
    rw [h]
    exact .nil

/-- Digits are read as the number that they denote: no number on the way to it exceeds it. -/
lemma foldlM_decimal (hbound : 0 < bound) :
    cs.foldlM (appendDigit 10 bound) 0 = .ok n ↔ Decimal cs n ∧ n < bound := by
  induction cs using List.reverseRecOn generalizing n with
  | nil =>
    rw [Decimal.nil_iff, List.foldlM_nil]
    constructor
    · intro h
      cases h
      exact ⟨rfl, hbound⟩
    · intro h
      rw [h.1]
      rfl
  | append_singleton cs c ih =>
    rw [List.foldlM_append, except_bind_eq_ok, Decimal.append_iff]
    simp only [ih, List.foldlM_cons, List.foldlM_nil, bind_pure, appendDigit_ten]
    constructor
    · intro ⟨v, ⟨hv, _⟩, d, hd, hc, hn, hlt⟩
      exact ⟨⟨v, hv, d, hd, hc, hn⟩, hlt⟩
    · intro ⟨⟨v, hv, d, hd, hc, hn⟩, hlt⟩
      exact ⟨v, ⟨hv, by omega⟩, d, hd, hc, hn, hlt⟩

lemma Decimal.not_plus : ¬Decimal ('+' :: cs) n := by
  induction cs using List.reverseRecOn generalizing n with
  | nil =>
    intro h
    have hlast : Decimal ([] ++ ['+']) n := h
    obtain ⟨v, _, d, hd, hc, _⟩ := append_iff.1 hlast
    have : ∀ d < 10, '+' ≠ Nat.digitChar d := by decide
    exact this d hd hc
  | append_singleton cs c ih =>
    intro h
    have hlast : Decimal ('+' :: cs ++ [c]) n := h
    obtain ⟨v, hv, _⟩ := append_iff.1 hlast
    exact ih hv

/-- A text is read as a number if it denotes this number and the number is below the bound. -/
lemma readNumber_ten (hbound : 0 < bound) :
    readNumber 10 bound cs = .ok n ↔ Numeral cs n ∧ n < bound := by
  constructor
  · intro h
    unfold readNumber at h
    split at h
    · cases h
    · cases h
    · next digits hne =>
      obtain ⟨hdigits, hn⟩ := (foldlM_decimal hbound).1 h
      exact ⟨.plus hne hdigits, hn⟩
    · next hne _ _ =>
      obtain ⟨hdigits, hn⟩ := (foldlM_decimal hbound).1 h
      exact ⟨.plain hne hdigits, hn⟩
  · intro ⟨h, hn⟩
    cases h with
    | plain hne hdigits =>
      unfold readNumber
      split
      · exact absurd rfl hne
      · exact absurd hdigits Decimal.not_plus
      · exact absurd hdigits Decimal.not_plus
      · exact (foldlM_decimal hbound).2 ⟨hdigits, hn⟩
    | plus hne hdigits =>
      rw [readNumber]
      · exact (foldlM_decimal hbound).2 ⟨hdigits, hn⟩
      · exact hne

end Dynarec.Text
