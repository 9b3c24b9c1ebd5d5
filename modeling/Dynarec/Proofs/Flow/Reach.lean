import Mathlib.Logic.Relation
import Dynarec.Flow.Graph
import Dynarec.Proofs.Run

/-!
# Reachable blocks

The blocks that `Graph.reachable` marks are those to which exits lead from the entry. The search
takes every block from its stack once, so its fuel is enough.
-/

namespace Dynarec.Flow.Graph

open Relation (ReflTransGen)

variable {B C : Type}

/-- Some exit of one block leads to another. -/
def Edge (g : Graph B C) (u w : Nat) : Prop := w ∈ g.targets u

/-- Exits lead from one block to another, in any number of steps. -/
abbrev Leads (g : Graph B C) : Nat → Nat → Prop := ReflTransGen g.Edge

/-- The entry and the targets of all exits are blocks. -/
structure InRange (g : Graph B C) : Prop where
  entry : g.entry < g.blocks.size
  target {u w : Nat} : g.Edge u w → w < g.blocks.size

/-- Only blocks have exits. -/
lemma Edge.lt {g : Graph B C} {u w : Nat} (h : g.Edge u w) : u < g.blocks.size := by
  by_contra hu
  simp [Edge, targets, exits, Array.getElem?_eq_none (Nat.le_of_not_lt hu)] at h

/-- What blocks of a graph lead to are blocks. -/
lemma Leads.lt {g : Graph B C} (hg : g.InRange) {u w : Nat} (hu : u < g.blocks.size)
    (h : g.Leads u w) : w < g.blocks.size := by
  cases h with
  | refl => exact hu
  | tail _ he => exact hg.target he

/-- An exit is an edge to its target. -/
lemma edge_of_mem {g : Graph B C} {u : Nat} {e : Exit C} (h : e ∈ g.exits u) :
    g.Edge u e.target := List.mem_map.2 ⟨e, h, rfl⟩

/-- The exits of the blocks that are reached. -/
def Live (g : Graph B C) (u w : Nat) : Prop := g.Leads g.entry u ∧ g.Edge u w

/-- Reached blocks are reached by exits of reached blocks. -/
lemma leads_live {g : Graph B C} {u : Nat} (h : g.Leads g.entry u) : ReflTransGen g.Live g.entry u := by
  induction h with
  | refl => exact .refl
  | tail hu he ih => exact ih.tail ⟨hu, he⟩

/-! ### Marks -/

/-- Number of blocks without a mark. -/
def unmarked (seen : Array Bool) : Nat := seen.count false

lemma getD_setIfInBounds {α : Type} (a : Array α) (i j : Nat) (x y : α) :
    (a.setIfInBounds i x).getD j y = if i = j ∧ j < a.size then x else a.getD j y := by
  simp only [Array.getD_eq_getD_getElem?, Array.getElem?_setIfInBounds]
  by_cases hij : i = j
  · subst hij
    by_cases hi : i < a.size <;> simp [hi]
  · simp [hij]

/-- A block without a mark is not past the end of the marks. -/
lemma getD_true_eq_false {seen : Array Bool} {v : Nat} :
    seen.getD v true = false ↔ v < seen.size ∧ seen.getD v false = false := by
  simp only [Array.getD_eq_getD_getElem?]
  by_cases hv : v < seen.size <;> simp [hv]

/-- Marking a block that has none takes one from the blocks without a mark. -/
lemma unmarked_set {seen : Array Bool} {v : Nat} (h : seen.getD v true = false) :
    unmarked (seen.setIfInBounds v true) + 1 = unmarked seen := by
  obtain ⟨hv, hf⟩ := getD_true_eq_false.1 h
  have hget : seen[v] = false := by simpa [Array.getD_eq_getD_getElem?, hv] using hf
  have hpos : 0 < seen.count false := Array.count_pos_iff.2 (hget ▸ Array.getElem_mem hv)
  rw [unmarked, unmarked, Array.setIfInBounds_def, dif_pos hv, Array.count_set hv]
  simp only [hget, beq_self_eq_true, if_true, Bool.true_beq, Bool.false_eq_true, if_false]
  omega

/-- What noting some blocks does to the marks and the stack. -/
structure Noted (seen seen' : Array Bool) (stack stack' vs : List Nat) : Prop where
  size : seen'.size = seen.size
  marked : ∀ w, seen'.getD w false = true ↔
    seen.getD w false = true ∨ w ∈ vs ∧ w < seen.size
  mem : ∀ w, w ∈ stack' ↔ w ∈ stack ∨ w ∈ vs ∧ w < seen.size ∧ seen.getD w false = false
  count : stack'.length + unmarked seen' = stack.length + unmarked seen

lemma noted_note (seen : Array Bool) (stack vs : List Nat) :
    Noted seen (note seen stack vs).1 stack (note seen stack vs).2 vs := by
  induction vs generalizing seen stack with
  | nil => exact ⟨rfl, by simp [note], by simp [note], rfl⟩
  | cons v vs ih =>
    by_cases hv : seen.getD v true = true
    · have hnote : note seen stack (v :: vs) = note seen stack vs := by
        simp only [note, List.foldl_cons, hv, if_true]
      have h := ih seen stack
      rw [hnote]
      refine ⟨h.size, fun w => ?_, fun w => ?_, h.count⟩
      · rw [h.marked]
        grind
      · rw [h.mem]
        grind
    · have hf : seen.getD v true = false := by simpa using hv
      have hnote : note seen stack (v :: vs) =
          note (seen.setIfInBounds v true) (v :: stack) vs := by
        simp only [note, List.foldl_cons, hf, Bool.false_eq_true, if_false]
      have h := ih (seen.setIfInBounds v true) (v :: stack)
      have hc := unmarked_set hf
      obtain ⟨hlt, hff⟩ := getD_true_eq_false.1 hf
      rw [hnote]
      refine ⟨by simp [h.size], fun w => ?_, fun w => ?_, ?_⟩
      · rw [h.marked, getD_setIfInBounds, Array.size_setIfInBounds]
        grind
      · rw [h.mem, getD_setIfInBounds, Array.size_setIfInBounds]
        grind
      · rw [h.count, List.length_cons]
        omega

/-! ### The search -/

/-- All marked blocks are reachable, and those that are not on the stack lead only to marked
blocks. -/
structure Explored (g : Graph B C) (seen : Array Bool) (stack : List Nat) : Prop where
  size : seen.size = g.blocks.size
  entry : seen.getD g.entry false = true
  reach : ∀ w, seen.getD w false = true → g.Leads g.entry w
  closed : ∀ u w, seen.getD u false = true → u ∉ stack → g.Edge u w → seen.getD w false = true

lemma explored_explore {g : Graph B C} (hg : g.InRange) {fuel : Nat} {stack : List Nat}
    {seen : Array Bool} (h : Explored g seen stack) (hs : ∀ v ∈ stack, seen.getD v false = true)
    (hfuel : stack.length + unmarked seen ≤ fuel) : Explored g (g.explore fuel stack seen) [] := by
  induction fuel generalizing stack seen with
  | zero =>
    obtain rfl : stack = [] := List.length_eq_zero_iff.1 (by omega)
    exact h
  | succ fuel ih =>
    cases stack with
    | nil => exact h
    | cons v stack =>
      have hn := noted_note seen stack (g.targets v)
      simp only [explore]
      apply ih
      · refine ⟨hn.size.trans h.size, ?_, fun w hw => ?_, fun u w hu hus he => ?_⟩
        · exact (hn.marked _).2 (.inl h.entry)
        · rcases (hn.marked w).1 hw with hw | ⟨hw, _⟩
          · exact h.reach w hw
          · exact (h.reach v (hs v (by simp))).tail hw
        · have hlt : w < seen.size := h.size ▸ hg.target he
          rw [hn.mem] at hus
          rcases (hn.marked u).1 hu with hu | ⟨hu, hult⟩
          · by_cases huv : u = v
            · subst huv
              exact (hn.marked w).2 (.inr ⟨he, hlt⟩)
            · exact (hn.marked w).2 (.inl (h.closed u w hu (by grind) he))
          · have : seen.getD u false = true := by grind
            by_cases huv : u = v
            · subst huv
              exact (hn.marked w).2 (.inr ⟨he, hlt⟩)
            · exact (hn.marked w).2 (.inl (h.closed u w this (by grind) he))
      · intro w hw
        rw [hn.marked]
        rcases (hn.mem w).1 hw with hw | ⟨hw, hlt, _⟩
        · exact .inl (hs w (by simp [hw]))
        · exact .inr ⟨hw, hlt⟩
      · have := hn.count
        simp only [List.length_cons] at hfuel
        omega

/-- The search starts with the entry. -/
lemma explored_reachable {g : Graph B C} (hg : g.InRange) : Explored g g.reachable [] := by
  have hn := noted_note (Array.replicate g.blocks.size false) [] [g.entry]
  have hz : ∀ w, (Array.replicate g.blocks.size false).getD w false = false := by
    intro w
    simp only [Array.getD_eq_getD_getElem?, Array.getElem?_replicate]
    split <;> rfl
  have hr : g.reachable = g.explore g.blocks.size
      (note (Array.replicate g.blocks.size false) [] [g.entry]).2
      (note (Array.replicate g.blocks.size false) [] [g.entry]).1 := rfl
  rw [hr]
  apply explored_explore hg
  · refine ⟨by simp [hn.size], ?_, fun w hw => ?_, fun u w hu hus he => ?_⟩
    · exact (hn.marked _).2 (.inr (by simpa using hg.entry))
    · rcases (hn.marked w).1 hw with hw | ⟨hw, _⟩
      · simp [hz] at hw
      · obtain rfl := List.mem_singleton.1 hw
        exact .refl
    · rcases (hn.marked u).1 hu with hu | ⟨hu, hlt⟩
      · simp [hz] at hu
      · exact absurd ((hn.mem u).2 (.inr ⟨hu, hlt, hz u⟩)) hus
  · intro w hw
    rw [hn.marked]
    rcases (hn.mem w).1 hw with hw | ⟨hw, hlt, _⟩
    · cases hw
    · exact .inr ⟨hw, hlt⟩
  · rw [hn.count]
    simp [unmarked]

/-- A block is marked reachable exactly if exits lead to it from the entry. -/
theorem reachable_iff {g : Graph B C} (hg : g.InRange) {v : Nat} :
    g.reachable.getD v false = true ↔ g.Leads g.entry v := by
  have h := explored_reachable hg
  refine ⟨h.reach v, fun hv => ?_⟩
  induction hv with
  | refl => exact h.entry
  | tail _ he ih => exact h.closed _ _ ih (by simp) he

end Dynarec.Flow.Graph
