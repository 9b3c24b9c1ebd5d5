import Mathlib.Data.List.SplitBy
import Dynarec.Text.Blank

/-!
# The words of a text

The words of a text are the only way to cut it into runs without blanks that have blanks between them.
-/

namespace Dynarec.Text

variable {run rest text : List Char} {ws : List (List Char)}

/-- A text consists of words, in this order, and of blanks: at its ends and between any two words. -/
inductive Separated : List (List Char) → List Char → Prop where
  | nil : Separated [] []
  | blank {c : Char} {ws : List (List Char)} {text : List Char} :
      isBlank c → Separated ws text → Separated ws (c :: text)
  | word {w : List Char} {ws : List (List Char)} {text : List Char} :
      w ≠ [] → (∀ c ∈ w, isBlank c = false) → (∀ c ∈ text.head?, isBlank c = true) →
      Separated ws text → Separated (w :: ws) (w ++ text)

/-- A text that is not empty starts with a longest run of blanks, or of other characters. -/
lemma exists_run (c : Char) (text : List Char) : ∃ run rest, text = run ++ rest ∧
    (∀ d ∈ c :: run, isBlank d = isBlank c) ∧ ∀ d ∈ rest.head?, isBlank d = !isBlank c := by
  induction text generalizing c with
  | nil => exact ⟨[], [], rfl, by simp, nofun⟩
  | cons d text ih =>
    by_cases hd : isBlank d = isBlank c
    · obtain ⟨run, rest, rfl, hrun, hrest⟩ := ih d
      rw [hd] at hrun hrest
      exact ⟨d :: run, rest, rfl, List.forall_mem_cons.2 ⟨rfl, hrun⟩, hrest⟩
    · refine ⟨[], d :: text, rfl, by simp, fun e he => ?_⟩
      cases he
      exact Bool.eq_not.2 hd

/-- A run of blanks adds no word, and a run of other characters that ends there is the first word. -/
lemma words_run {v : Bool} (hn : run ≠ []) (hrun : ∀ c ∈ run, isBlank c = v)
    (hrest : ∀ c ∈ rest.head?, isBlank c = !v) :
    words (run ++ rest) = if v then words rest else run :: words rest := by
  have hchain : run.IsChain fun a b => isBlank a == isBlank b := by
    apply List.Pairwise.isChain
    apply List.pairwise_of_forall_mem_list
    intro a ha b hb
    simp only [hrun a ha, hrun b hb, beq_self_eq_true]
  have hcut : ∀ a ∈ run.getLast?, ∀ b ∈ rest.head?, (isBlank a == isBlank b) = false := by
    intro a ha b hb
    rw [hrun a (List.mem_of_mem_getLast? ha), hrest b hb]
    exact Bool.beq_not_self v
  have hall : run.all (!isBlank ·) = !v := by
    obtain ⟨c, cs, rfl⟩ := List.exists_cons_of_ne_nil hn
    have hc := hrun c List.mem_cons_self
    cases v with
    | true => simp [hc]
    | false => simpa using hrun
  rw [words, List.splitBy_append hcut, List.splitBy_of_isChain hn hchain, List.filter_append,
    List.filter_singleton, hall]
  cases v <;> rfl

lemma words_blank {c : Char} (hc : isBlank c = true) : words (c :: text) = words text := by
  obtain ⟨run, rest, rfl, hrun, hrest⟩ := exists_run c text
  rw [hc] at hrun hrest
  have hfirst : words (c :: run ++ rest) = words rest := words_run (List.cons_ne_nil c run) hrun hrest
  cases run with
  | nil => exact hfirst
  | cons d run =>
    have hrun' : ∀ e ∈ d :: run, isBlank e = true := fun e he => hrun e (List.mem_cons_of_mem c he)
    have hnext : words (d :: run ++ rest) = words rest := words_run (List.cons_ne_nil d run) hrun' hrest
    exact hfirst.trans hnext.symm

lemma Separated.blanks (h : Separated ws rest) (hrun : ∀ c ∈ run, isBlank c = true) :
    Separated ws (run ++ rest) := by
  induction run with
  | nil => exact h
  | cons c run ih =>
    rw [List.forall_mem_cons] at hrun
    exact .blank hrun.1 (ih hrun.2)

lemma separated_words (text : List Char) : Separated (words text) text := by
  induction hlen : text.length using Nat.strongRecOn generalizing text with
  | _ n ih =>
    cases text with
    | nil => exact .nil
    | cons c text =>
      obtain ⟨run, rest, rfl, hrun, hrest⟩ := exists_run c text
      have hlt : rest.length < n := by
        simp only [← hlen, List.length_cons, List.length_append]
        omega
      have hwords := words_run (List.cons_ne_nil c run) hrun hrest
      have hafter := ih rest.length hlt rest rfl
      rw [← List.cons_append, hwords]
      cases hc : isBlank c with
      | true =>
        rw [hc] at hrun
        exact hafter.blanks hrun
      | false =>
        rw [hc] at hrun hrest
        exact .word (List.cons_ne_nil c run) hrun hrest hafter

/-- The words of a text are those that it consists of. -/
lemma words_eq_iff : words text = ws ↔ Separated ws text := by
  constructor
  · intro h
    rw [← h]
    exact separated_words text
  · intro h
    induction h with
    | nil => rfl
    | blank hc _ ih => rw [words_blank hc, ih]
    | word hn hw hrest _ ih =>
      rw [words_run hn hw hrest, ih]
      rfl

end Dynarec.Text
