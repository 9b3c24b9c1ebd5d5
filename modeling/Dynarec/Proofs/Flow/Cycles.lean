import Mathlib.Logic.Relation
import Mathlib.Tactic.Common

/-!
# Nested cycles

The cycles of a graph by levels: first those of the graph, then those that are left inside of them
when every cycle has lost the exits to blocks at which it is entered, and so on. An exit leads back if
at some level it stays on a cycle and goes to a block at which that cycle is entered. In a graph whose
cycles have single entries these are the exits to blocks that dominate their sources, but the levels
are there for every graph. So they tell what three changes of a graph do to the exits that lead back:
a block before the entry, a block that is merged into the only one that leads to it, and a dispatcher
before the entries of a cycle.
-/

namespace Dynarec.Flow

open Relation (ReflTransGen TransGen)

variable {E E' R R' : Nat → Nat → Prop} {root a b p u w x y : Nat} {j k : Nat}

/-- Two blocks lie on one cycle. -/
def Tied (R : Nat → Nat → Prop) (u w : Nat) : Prop := TransGen R u w ∧ TransGen R w u

lemma Tied.symm (h : Tied R u w) : Tied R w u := ⟨h.2, h.1⟩

lemma Tied.trans (h : Tied R u w) (h' : Tied R w x) : Tied R u x :=
  ⟨h.1.trans h'.1, h'.2.trans h.2⟩

lemma Tied.mono (hR : ∀ u w, R u w → R' u w) (h : Tied R u w) : Tied R' u w :=
  ⟨TransGen.mono hR _ _ h.1, TransGen.mono hR _ _ h.2⟩

/-- Something leads to a block on a cycle. -/
lemma Tied.exists_edge (h : Tied R u w) : ∃ x, R x w := by
  obtain ⟨x, _, hx⟩ := TransGen.tail'_iff.1 h.1
  exact ⟨x, hx⟩

/-- The cycle of a block is entered at it: from another block, or because a run starts there. -/
def Entered (E : Nat → Nat → Prop) (root : Nat) (R : Nat → Nat → Prop) (w : Nat) : Prop :=
  w = root ∨ ∃ u, E u w ∧ ¬ Tied R u w

/-- The exits that stay on a cycle and do not go where it is entered. -/
def inner (E : Nat → Nat → Prop) (root : Nat) (R : Nat → Nat → Prop) (u w : Nat) : Prop :=
  R u w ∧ Tied R u w ∧ ¬ Entered E root R w

/-- The exits that are left after a number of levels. -/
def level (E : Nat → Nat → Prop) (root : Nat) : Nat → Nat → Nat → Prop
  | 0 => E
  | k + 1 => inner E root (level E root k)

/-- An exit leads back. -/
def Back (E : Nat → Nat → Prop) (root : Nat) (u w : Nat) : Prop :=
  E u w ∧ ∃ k, Tied (level E root k) u w ∧ Entered E root (level E root k) w

/-- The blocks of a cycle at a level. -/
def Cycle (E : Nat → Nat → Prop) (root k : Nat) (X : Nat → Prop) : Prop :=
  ∃ x, X x ∧ ∀ y, X y ↔ Tied (level E root k) x y

/-! ### Levels -/

lemma level_anti (h : j ≤ k) : level E root k u w → level E root j u w := by
  induction h with
  | refl => exact id
  | step _ ih => exact fun h => ih h.1

lemma edge_of_level (h : level E root k u w) : E u w := level_anti (Nat.zero_le k) h

/-- A block on a cycle is not where the cycles around are entered. -/
lemma not_entered_of_tied (h : Tied (level E root k) u w) (hj : j < k) :
    ¬ Entered E root (level E root j) w := by
  obtain ⟨x, hx⟩ := h.exists_edge
  exact (level_anti hj hx : level E root (j + 1) x w).2.2

/-- Every exit between blocks of a cycle is an exit of its level. -/
lemma level_of_tied (he : E u w) (h : Tied (level E root k) u w) : level E root k u w := by
  induction k with
  | zero => exact he
  | succ k ih =>
    have htied : Tied (level E root k) u w := h.mono fun _ _ => And.left
    exact ⟨ih htied, htied, not_entered_of_tied h (Nat.lt_succ_self k)⟩

lemma Cycle.tied {X : Nat → Prop} (h : Cycle E root k X) (hu : X u) (hw : X w) :
    Tied (level E root k) u w := by
  obtain ⟨x, _, hX⟩ := h
  exact ((hX u).1 hu).symm.trans ((hX w).1 hw)

lemma Cycle.of_tied {X : Nat → Prop} (h : Cycle E root k X) (hu : X u)
    (ht : Tied (level E root k) u w) : X w := by
  obtain ⟨x, _, hX⟩ := h
  exact (hX w).2 (((hX u).1 hu).trans ht)

/-- Inside a cycle that is entered at one block, the cycles of the next level are those that do not
pass that block. -/
lemma Cycle.tied_inside {X : Nat → Prop} {c : Nat} (h : Cycle E root k X)
    (honly : ∀ w, X w → (Entered E root (level E root k) w ↔ w = c)) :
    Tied (fun u w => (X u ∧ u ≠ c) ∧ (X w ∧ w ≠ c) ∧ E u w) x y ↔
      X x ∧ Tied (level E root (k + 1)) x y := by
  have hto : ∀ {u w}, X u → level E root (k + 1) u w → X w ∧ w ≠ c := by
    intro u w hu he
    have hw := h.of_tied hu he.2.1
    exact ⟨hw, fun hwc => he.2.2 ((honly w hw).2 hwc)⟩
  have hpath : ∀ {u w}, X u ∧ u ≠ c → TransGen (level E root (k + 1)) u w →
      (X w ∧ w ≠ c) ∧ TransGen (fun u w => (X u ∧ u ≠ c) ∧ (X w ∧ w ≠ c) ∧ E u w) u w := by
    intro u w hu hp
    induction hp with
    | single he =>
      have hw := hto hu.1 he
      exact ⟨hw, .single ⟨hu, hw, edge_of_level he⟩⟩
    | tail _ he ih =>
      have hw := hto ih.1.1 he
      exact ⟨hw, ih.2.tail ⟨ih.1, hw, edge_of_level he⟩⟩
  constructor
  · intro ht
    obtain ⟨z, hz⟩ := ht.symm.exists_edge
    refine ⟨hz.2.1.1, ht.mono fun u w he => ?_⟩
    have htied := h.tied he.1.1 he.2.1.1
    exact ⟨level_of_tied he.2.2 htied, htied, fun hw => he.2.1.2 ((honly w he.2.1.1).1 hw)⟩
  · rintro ⟨hx, ht⟩
    obtain ⟨z, hz⟩ := ht.symm.exists_edge
    have hxc : x ≠ c := fun hxc => hz.2.2 ((honly x hx).2 hxc)
    obtain ⟨hy, hxy⟩ := hpath ⟨hx, hxc⟩ ht.1
    exact ⟨hxy, (hpath hy ht.2).2⟩

/-- Exits from a block that nothing leads to are on no cycle. -/
lemma tied_congr_of_source (h : ∀ u w, R u w → R' u w) (h' : ∀ u w, R' u w → R u w ∨ u = p)
    (hp : ∀ u, ¬ R' u p) : Tied R' u w ↔ Tied R u w := by
  have hpath : ∀ {x y}, TransGen R' x y → x ≠ p → TransGen R x y := by
    intro x y hxy hx
    induction hxy with
    | single hy => exact .single ((h' _ _ hy).resolve_right hx)
    | @tail c d hc hd ih =>
      obtain ⟨z, _, hz⟩ := TransGen.tail'_iff.1 hc
      exact ih.tail ((h' _ _ hd).resolve_right fun hcp => hp z (hcp ▸ hz))
  have hne : ∀ {x y}, TransGen R' x y → y ≠ p := by
    intro x y hxy hy
    obtain ⟨z, _, hz⟩ := TransGen.tail'_iff.1 hxy
    exact hp z (hy ▸ hz)
  exact ⟨fun ht => ⟨hpath ht.1 (hne ht.2), hpath ht.2 (hne ht.1)⟩, Tied.mono h⟩

/-! ### A block before the entry -/

section

variable (hE : ∀ u w, E' u w ↔ E u w ∨ u = p ∧ w = root)
include hE

lemma entered_prepend (htied : ∀ u w, Tied R' u w ↔ Tied R u w) (hp : ∀ w, ¬ Tied R p w)
    (hw : w ≠ p) : Entered E' p R' w ↔ Entered E root R w := by
  constructor
  · rintro (rfl | ⟨u, hu, hn⟩)
    · exact absurd rfl hw
    · rcases (hE u w).1 hu with hu | ⟨_, rfl⟩
      · exact .inr ⟨u, hu, fun h => hn ((htied u w).2 h)⟩
      · exact .inl rfl
  · rintro (rfl | ⟨u, hu, hn⟩)
    · exact .inr ⟨p, (hE p w).2 (.inr ⟨rfl, rfl⟩), fun h => hp w ((htied p w).1 h)⟩
    · exact .inr ⟨u, (hE u w).2 (.inl hu), fun h => hn ((htied u w).1 h)⟩

variable (hto : ∀ u, ¬ E u p) (hne : p ≠ root)

omit hE in
include hne in
lemma tied_prepend (h : ∀ u w, R' u w ↔ R u w ∨ k = 0 ∧ u = p ∧ w = root) (hR : ∀ u, ¬ R u p) :
    Tied R' u w ↔ Tied R u w := by
  refine tied_congr_of_source (fun u w hu => (h u w).2 (.inl hu))
    (fun u w hu => ((h u w).1 hu).imp_right fun h => h.2.1) fun u hu => ?_
  rcases (h u p).1 hu with hu | ⟨_, _, hpr⟩
  · exact hR u hu
  · exact hne hpr

omit hE in
include hto in
lemma not_tied_source : ¬ Tied (level E root k) p w := by
  intro h
  obtain ⟨x, hx⟩ := h.symm.exists_edge
  exact hto x (edge_of_level hx)

include hto hne

/-- The new block changes only the first level. -/
lemma level_prepend (k : Nat) (u w : Nat) :
    level E' p k u w ↔ level E root k u w ∨ k = 0 ∧ u = p ∧ w = root := by
  induction k generalizing u w with
  | zero => simpa [level] using hE u w
  | succ k ih =>
    have htied : ∀ u w, Tied (level E' p k) u w ↔ Tied (level E root k) u w := fun u w =>
      tied_prepend hne ih fun u hu => hto u (edge_of_level hu)
    have hp : ∀ w, ¬ Tied (level E root k) p w := fun w => not_tied_source hto
    have hsame : Tied (level E root k) u w →
        (level E' p k u w ↔ level E root k u w) ∧
          (Entered E' p (level E' p k) w ↔ Entered E root (level E root k) w) := by
      intro ht
      refine ⟨(ih u w).trans (or_iff_left ?_), entered_prepend hE htied hp ?_⟩
      · rintro ⟨_, rfl, _⟩
        exact hp w ht
      · rintro rfl
        exact hp u ht.symm
    simp only [level, inner, htied, Nat.add_one_ne_zero, false_and, or_false]
    constructor
    · rintro ⟨h, ht, hn⟩
      exact ⟨(hsame ht).1.1 h, ht, fun h => hn ((hsame ht).2.2 h)⟩
    · rintro ⟨h, ht, hn⟩
      exact ⟨(hsame ht).1.2 h, ht, fun h => hn ((hsame ht).2.1 h)⟩

/-- A block before the entry changes nothing of what leads back. -/
theorem back_prepend : Back E' p u w ↔ Back E root u w := by
  have htied : ∀ k u w, Tied (level E' p k) u w ↔ Tied (level E root k) u w := fun k u w =>
    tied_prepend hne (level_prepend hE hto hne k)
      fun u hu => hto u (edge_of_level hu)
  have hp : ∀ k w, ¬ Tied (level E root k) p w := fun k w => not_tied_source hto
  have hentered : ∀ k, Tied (level E root k) u w →
      (Entered E' p (level E' p k) w ↔ Entered E root (level E root k) w) := by
    intro k ht
    refine entered_prepend hE (htied k) (hp k) ?_
    rintro rfl
    exact hp k u ht.symm
  constructor
  · rintro ⟨he, k, ht, h⟩
    have ht := (htied k u w).1 ht
    refine ⟨((hE u w).1 he).resolve_right fun h => hp k w (h.1 ▸ ht), k, ht, (hentered k ht).1 h⟩
  · rintro ⟨he, k, ht, h⟩
    exact ⟨(hE u w).2 (.inl he), k, (htied k u w).2 ht, (hentered k ht).2 h⟩

end

/-! ### A block that is merged into another one -/

/-- The block that the exits of a block come from after block `b` has been merged into block `a`. -/
def source (a b u : Nat) : Nat := if u = a then b else u

/-- The exits after block `b` has been merged into block `a`. -/
def contract (a b : Nat) (R : Nat → Nat → Prop) (u w : Nat) : Prop := u ≠ b ∧ R (source a b u) w

lemma source_self : source a b a = b := if_pos rfl

lemma source_of_ne (h : u ≠ a) : source a b u = u := if_neg h

/-- Nothing but block `a` leads to block `b`, and block `a` leads nowhere else. -/
structure Sole (E : Nat → Nat → Prop) (root a b : Nat) : Prop where
  edge : E a b
  ne : b ≠ a
  root : b ≠ root
  out {w : Nat} : E a w → w = b
  into {u : Nat} : E u b → u = a

namespace Sole

variable (h : Sole E root a b)
include h

lemma not_self : ¬ E b b := fun hb => h.ne (h.into hb)

variable (hR : ∀ u w, R u w → E u w) (hb : ∀ w, R b w → R a b)
include hR

lemma target_ne (he : contract a b R u w) : w ≠ b := by
  rintro rfl
  have hu := h.into (hR _ _ he.2)
  by_cases hua : u = a
  · rw [hua, source_self] at hu
    exact h.ne hu
  · rw [source_of_ne hua] at hu
    exact hua hu

lemma tied_source (hw : w ≠ b) : Tied R b w ↔ Tied R a w := by
  constructor
  · rintro ⟨hbw, hwb⟩
    obtain ⟨x, hwx, hxb⟩ := TransGen.tail'_iff.1 hwb
    obtain rfl := h.into (hR _ _ hxb)
    have hxw : TransGen R x w := hbw.head hxb
    refine ⟨hxw, ?_⟩
    rcases Relation.reflTransGen_iff_eq_or_transGen.1 hwx with rfl | hwx
    · exact hxw
    · exact hwx
  · rintro ⟨haw, hwa⟩
    obtain ⟨x, hax, hxw⟩ := TransGen.head'_iff.1 haw
    obtain rfl := h.out (hR _ _ hax)
    exact ⟨(Relation.reflTransGen_iff_eq_or_transGen.1 hxw).resolve_left hw, hwa.tail hax⟩

lemma transGen_contract_of_transGen (hu : u ≠ b) (hp : TransGen R u w) :
    (w ≠ b → TransGen (contract a b R) u w) ∧ (w = b → ReflTransGen (contract a b R) u a) := by
  -- an exit that does not come from `a` stays
  have hstep : ∀ {x y}, x ≠ b → y ≠ b → R x y → contract a b R x y := by
    intro x y hx hy he
    refine ⟨hx, ?_⟩
    rwa [source_of_ne]
    rintro rfl
    exact hy (h.out (hR _ _ he))
  induction hp with
  | @single w he =>
    refine ⟨fun hw => .single (hstep hu hw he), ?_⟩
    rintro rfl
    rw [h.into (hR _ _ he)]
  | @tail x w _ he ih =>
    by_cases hx : x = b
    · subst hx
      refine ⟨fun _ => TransGen.tail' (ih.2 rfl) ⟨h.ne.symm, ?_⟩, ?_⟩
      · rwa [source_self]
      · rintro rfl
        exact absurd (hR _ _ he) h.not_self
    · refine ⟨fun hw => (ih.1 hx).tail (hstep hx hw he), ?_⟩
      rintro rfl
      obtain rfl := h.into (hR _ _ he)
      exact (ih.1 hx).to_reflTransGen

include hb

lemma tied_contract (hu : u ≠ b) (hw : w ≠ b) :
    Tied (contract a b R) u w ↔ Tied R (source a b u) w := by
  have hpath : ∀ {u w}, TransGen (contract a b R) u w → TransGen R u w := by
    intro u w hp
    refine TransGen.closed (fun u w he => ?_) _ _ hp
    obtain ⟨_, he⟩ := he
    by_cases hu : u = a
    · rw [hu, source_self] at he
      exact hu ▸ .head (hb w he) (.single he)
    · rw [source_of_ne hu] at he
      exact .single he
  have hsame : Tied (contract a b R) u w ↔ Tied R u w :=
    ⟨fun ht => ⟨hpath ht.1, hpath ht.2⟩, fun ht =>
      ⟨(h.transGen_contract_of_transGen hR hu ht.1).1 hw,
        (h.transGen_contract_of_transGen hR hw ht.2).1 hu⟩⟩
  by_cases hua : u = a
  · rw [hsame, hua, source_self, h.tied_source hR hw]
  · rw [hsame, source_of_ne hua]

lemma entered_contract (hw : w ≠ b) :
    Entered (contract a b E) root (contract a b R) w ↔ Entered E root R w := by
  refine or_congr_right ⟨?_, ?_⟩
  · rintro ⟨u, ⟨hu, he⟩, hn⟩
    exact ⟨source a b u, he, fun ht => hn ((h.tied_contract hR hb hu hw).2 ht)⟩
  · rintro ⟨u, he, hn⟩
    by_cases hu : u = b
    · subst hu
      rw [← source_self (a := a) (b := u), ← h.tied_contract hR hb h.ne.symm hw] at hn
      rw [← source_self (a := a) (b := u)] at he
      exact ⟨a, ⟨h.ne.symm, he⟩, hn⟩
    · have hua : u ≠ a := by
        rintro rfl
        exact hw (h.out he)
      rw [← source_of_ne (b := b) hua, ← h.tied_contract hR hb hu hw] at hn
      rw [← source_of_ne (b := b) hua] at he
      exact ⟨u, ⟨hu, he⟩, hn⟩

omit hR hb

/-- The merged block is entered from the block that it is merged into only. -/
lemma not_entered (ht : Tied R a b) : ¬ Entered E root R b := by
  rintro (hr | ⟨u, he, hn⟩)
  · exact h.root hr
  · rw [h.into he] at hn
    exact hn ht

/-- What leads on from the merged block is left only as long as it is reached. -/
lemma level_edge (k : Nat) (hbw : level E root k b w) : level E root k a b := by
  induction k generalizing w with
  | zero => exact h.edge
  | succ k ih =>
    obtain ⟨hbw, ht, _⟩ := hbw
    have hR : ∀ u w, level E root k u w → E u w := fun _ _ => edge_of_level
    have hne : w ≠ b := by
      rintro rfl
      exact h.not_self (hR _ _ hbw)
    have hab : Tied (level E root k) a b := ((h.tied_source hR hne).1 ht).trans ht.symm
    exact ⟨ih hbw, hab, h.not_entered hab⟩

/-- Merging commutes with taking levels. -/
lemma level_contract (k : Nat) :
    level (contract a b E) root k = contract a b (level E root k) := by
  induction k with
  | zero => rfl
  | succ k ih =>
    have hR : ∀ u w, level E root k u w → E u w := fun _ _ => edge_of_level
    have hb : ∀ w, level E root k b w → level E root k a b := fun _ => h.level_edge k
    funext u w
    simp only [level, ih, inner, contract, and_assoc, eq_iff_iff]
    refine and_congr_right fun hu => and_congr_right fun he => ?_
    have hw := h.target_ne hR ⟨hu, he⟩
    exact and_congr (h.tied_contract hR hb hu hw) (not_congr (h.entered_contract hR hb hw))

/-- Merging a block changes nothing of what leads back. -/
theorem back_contract : Back (contract a b E) root u w ↔ contract a b (Back E root) u w := by
  simp only [Back, h.level_contract, contract, and_assoc]
  refine and_congr_right fun hu => and_congr_right fun he => exists_congr fun k => ?_
  have hR : ∀ u w, level E root k u w → E u w := fun _ _ => edge_of_level
  have hb : ∀ w, level E root k b w → level E root k a b := fun _ => h.level_edge k
  have hw := h.target_ne (fun _ _ => id) ⟨hu, he⟩
  exact and_congr (h.tied_contract hR hb hu hw) (h.entered_contract hR hb hw)

/-- Going to the merged block never leads back. -/
lemma not_back : ¬ Back E root a b := fun ⟨_, _, ht, hn⟩ => h.not_entered ht hn

end Sole

end Dynarec.Flow
