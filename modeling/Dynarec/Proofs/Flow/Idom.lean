import Dynarec.Proofs.Flow.Dominators

/-!
# Immediate dominators

The immediate dominator of a block is the closest other one that dominates it. This module says what
the tables hold from which `Graph.immediateDominators` finds it: the number of a block is its
position in the order, and its predecessors are the sources of the exits to it.
-/

namespace Dynarec.Flow.Graph

variable {B C : Type} {g : Graph B C} {order : List Nat} {b : Nat}

lemma getD_modify {α : Type} (a : Array α) (i j : Nat) (f : α → α) (x : α) :
    (a.modify i f).getD j x = if i = j ∧ j < a.size then f (a.getD j x) else a.getD j x := by
  simp only [Array.getD_eq_getD_getElem?, Array.getElem?_modify]
  by_cases hij : i = j
  · subst hij
    by_cases hi : i < a.size <;> simp [hi]
  · simp [hij]

lemma getD_replicate {α : Type} (n i : Nat) (x : α) : (Array.replicate n x).getD i x = x := by
  simp only [Array.getD_eq_getD_getElem?, Array.getElem?_replicate]
  split <;> rfl

lemma size_foldl_modify {α : Type} (f : α → α) (ws : List Nat) (a : Array α) :
    (ws.foldl (fun a w => a.modify w f) a).size = a.size := by
  induction ws generalizing a with
  | nil => rfl
  | cons w ws ih => rw [List.foldl_cons, ih, Array.size_modify]

/-- An element is changed as often as its index is listed. -/
lemma getD_foldl_modify {α : Type} (f : α → α) (ws : List Nat) (a : Array α) {i : Nat}
    (hi : i < a.size) (x : α) :
    (ws.foldl (fun a w => a.modify w f) a).getD i x = f^[ws.count i] (a.getD i x) := by
  induction ws generalizing a with
  | nil => rfl
  | cons w ws ih =>
    rw [List.foldl_cons, ih _ (by rwa [Array.size_modify]), getD_modify]
    by_cases hw : w = i
    · rw [if_pos ⟨hw, hi⟩, hw, List.count_cons_self, Function.iterate_succ_apply]
    · rw [if_neg fun h => hw h.1, List.count_cons_of_ne hw]

lemma mem_iterate_cons {α : Type} (x u : α) (n : Nat) (l : List α) :
    u ∈ (x :: ·)^[n] l ↔ u = x ∧ 0 < n ∨ u ∈ l := by
  induction n generalizing l with
  | zero => simp
  | succ n ih =>
    rw [Function.iterate_succ_apply, ih, List.mem_cons]
    simp only [Nat.zero_lt_succ, and_true]
    tauto

/-! ### Positions and predecessors -/

lemma getD_foldl_zipIdx (l : List Nat) (k : Nat) (number : Array Nat) (v : Nat) (hnodup : l.Nodup)
    (hv : v < number.size) :
    ((l.zipIdx k).foldl (fun number (v, i) => number.setIfInBounds v i) number).getD v 0 =
      if v ∈ l then k + l.idxOf v else number.getD v 0 := by
  induction l generalizing k number with
  | nil => simp
  | cons a l ih =>
    rw [List.nodup_cons] at hnodup
    rw [List.zipIdx_cons, List.foldl_cons, ih _ _ hnodup.2 (by simpa using hv), getD_setIfInBounds]
    by_cases hva : a = v
    · subst hva
      simp [hnodup.1, hv]
    · have hva' : v ≠ a := Ne.symm hva
      simp only [List.mem_cons, hva', false_or, hva, false_and, if_false, List.idxOf_cons_ne _ hva]
      split
      · omega
      · rfl

/-- The number of a reachable block is its position. -/
lemma Numbered.getD_positions (h : g.Numbered order) (hb : b ∈ order) :
    (g.positions order).getD b 0 = order.idxOf b := by
  rw [positions, getD_foldl_zipIdx _ _ _ _ h.ordered.nodup (by simpa using h.lt hb), if_pos hb,
    Nat.zero_add]

/-- The predecessors of a block are the sources of exits to it. -/
lemma mem_predecessors (order : List Nat) (u : Nat) (hb : b < g.blocks.size) :
    u ∈ (g.predecessors order).getD b [] ↔ u ∈ order ∧ g.Edge u b := by
  have hinner : ∀ (x : Nat) (ws : List Nat) (preds : Array (List Nat)), b < preds.size →
      (u ∈ (ws.foldl (fun preds v => preds.modify v (x :: ·)) preds).getD b [] ↔
        u = x ∧ b ∈ ws ∨ u ∈ preds.getD b []) := by
    intro x ws preds hp
    rw [getD_foldl_modify _ _ _ hp, mem_iterate_cons, List.count_pos_iff]
  have houter : ∀ (vs : List Nat) (preds : Array (List Nat)), b < preds.size →
      (u ∈ (vs.foldl (fun preds u => (g.targets u).foldl (fun preds v =>
        preds.modify v (u :: ·)) preds) preds).getD b [] ↔
        u ∈ vs ∧ g.Edge u b ∨ u ∈ preds.getD b []) := by
    intro vs
    induction vs with
    | nil => simp
    | cons x vs ih =>
      intro preds hp
      rw [List.foldl_cons, ih _ (by rwa [size_foldl_modify]), hinner x (g.targets x) preds hp,
        List.mem_cons]
      constructor
      · rintro (⟨hu, he⟩ | ⟨rfl, he⟩ | hu)
        · exact .inl ⟨.inr hu, he⟩
        · exact .inl ⟨.inl rfl, he⟩
        · exact .inr hu
      · rintro (⟨rfl | hu, he⟩ | hu)
        · exact .inr (.inl ⟨rfl, he⟩)
        · exact .inl ⟨hu, he⟩
        · exact .inr (.inr hu)
  rw [predecessors, houter _ _ (by simpa using hb), getD_replicate]
  simp

/-! ### Dominators of blocks -/

/-- The dominators of `d` are those of `b` other than `b`. -/
def IsIdom (g : Graph B C) (d b : Nat) : Prop := ∀ a, g.Dom a d ↔ g.Dom a b ∧ a ≠ b

lemma IsIdom.dom {d : Nat} (h : g.IsIdom d b) : g.Dom d b ∧ d ≠ b := (h d).1 (.refl g d)

/-- The immediate dominators of all blocks of an order but the entry are known. -/
def Known (g : Graph B C) (order : List Nat) (idom : Array (Option Nat)) : Prop :=
  ∀ v ∈ order, v ≠ g.entry → ∃ d, idom.getD v none = some d ∧ g.IsIdom d v

namespace Numbered

variable (h : g.Numbered order)
include h

lemma idom_lt {d : Nat} (hb : b ∈ order) (hd : g.IsIdom d b) :
    d ∈ order ∧ order.idxOf d < order.idxOf b := h.idxOf_lt hb hd.dom.1 hd.dom.2

lemma idom_unique {d d' : Nat} (hb : b ∈ order) (hd : g.IsIdom d b) (hd' : g.IsIdom d' b) :
    d = d' :=
  h.dom_antisymm (h.idom_lt hb hd').1 ((hd' d).2 hd.dom) ((hd d').2 hd'.dom)

/-- A dominator that all others dominate is the immediate one. -/
lemma isIdom_of_closest {d : Nat} (hb : b ∈ order) (hd : g.Dom d b) (hne : d ≠ b)
    (hclosest : ∀ a, g.Dom a b → a ≠ b → g.Dom a d) : g.IsIdom d b := by
  refine fun a => ⟨fun ha => ⟨ha.trans hd, ?_⟩, fun ha => hclosest a ha.1 ha.2⟩
  rintro rfl
  exact hne (h.dom_antisymm hb hd ha)

/-- Climbing from a block meets its dominators and no other blocks. -/
lemma dominates_iff_dom {idom : Array (Option Nat)} (hk : Known g order idom) {a fuel : Nat}
    (hb : b ∈ order) (hfuel : order.idxOf b < fuel) :
    g.dominates idom a fuel b = true ↔ g.Dom a b := by
  induction fuel generalizing b with
  | zero => omega
  | succ fuel ih =>
    rw [Graph.dominates]
    by_cases hab : a = b
    · subst hab
      simp only [if_true, Dom.refl]
    · rw [if_neg hab]
      by_cases hne : b = g.entry
      · subst hne
        rw [if_pos rfl]
        exact ⟨fun hf => absurd hf Bool.false_ne_true, fun hd => absurd hd.eq_entry hab⟩
      · obtain ⟨d, hdb, hidom⟩ := hk b hb hne
        obtain ⟨hdo, hlt⟩ := h.idom_lt hb hidom
        simp only [if_neg hne, hdb]
        rw [ih hdo (by omega), hidom a]
        exact and_iff_left hab

end Numbered

end Dynarec.Flow.Graph
