import Dynarec.Proofs.Flow.Rounds
import Mathlib.Algebra.GroupWithZero.Nat

/-!
# Facts about dominance

`Graph.dominance` succeeds exactly if every exit back leads to a dominator of its source, as it does
in a graph in which every cycle has a single entry. What it gives is right: a block heads a loop
exactly if some exit leads back to it, blocks that are not merges have one forward exit, and the
children of a block are the blocks it immediately dominates, the last in the order first.
-/

namespace Dynarec.Flow.Graph

variable {B C : Type} {g : Graph B C} {order : List Nat}

/-- How many forward exits lead to a block. -/
def forwardExits (g : Graph B C) (order : List Nat) (t : Nat) : Nat :=
  (order.map fun u => if order.idxOf u < order.idxOf t then (g.targets u).count t else 0).sum

/-- What dominance facts say of a graph. -/
structure Sound (g : Graph B C) (order : List Nat) (d : Dominance) : Prop where
  number : ∀ v ∈ order, d.number.getD v 0 = order.idxOf v
  header : ∀ v ∈ order, d.header.getD v false = true ↔
    ∃ u ∈ order, g.Edge u v ∧ order.idxOf v ≤ order.idxOf u
  merge : ∀ v ∈ order, d.merge.getD v false = true ↔ 2 ≤ g.forwardExits order v
  children : ∀ v c, c ∈ d.children.getD v [] ↔ c ∈ order ∧ c ≠ g.entry ∧ g.IsIdom v c
  descending : ∀ v, (d.children.getD v []).Pairwise fun a b => order.idxOf b < order.idxOf a

/-- A fold that may fail succeeds if no step fails, and then it is a fold. -/
lemma foldlM_eq_ok {α σ ε : Type} {f : σ → α → Except ε σ} {f' : σ → α → σ} {P : α → Prop}
    {xs : List α} (h : ∀ s, ∀ x ∈ xs, ∀ r, f s x = .ok r ↔ P x ∧ f' s x = r) (s r : σ) :
    xs.foldlM f s = .ok r ↔ (∀ x ∈ xs, P x) ∧ xs.foldl f' s = r := by
  induction xs generalizing s with
  | nil => exact ⟨fun he => ⟨by simp, Except.ok.inj he⟩, fun he => congrArg Except.ok he.2⟩
  | cons x xs ih =>
    rw [List.foldlM_cons, except_bind_eq_ok, List.forall_mem_cons, List.foldl_cons]
    have hrest := ih fun s y hy => h s y (List.mem_cons_of_mem _ hy)
    constructor
    · rintro ⟨a, ha, hr⟩
      obtain ⟨hx, rfl⟩ := (h s x List.mem_cons_self a).1 ha
      obtain ⟨hxs, rfl⟩ := (hrest _).1 hr
      exact ⟨⟨hx, hxs⟩, rfl⟩
    · rintro ⟨⟨hx, hxs⟩, rfl⟩
      exact ⟨_, (h s x List.mem_cons_self _).2 ⟨hx, rfl⟩, (hrest _).2 ⟨hxs, rfl⟩⟩

lemma getD_map_le (a : Array Nat) (v : Nat) :
    (a.map fun n => decide (2 ≤ n)).getD v false = true ↔ 2 ≤ a.getD v 0 := by
  simp only [Array.getD_eq_getD_getElem?, Array.getElem?_map]
  cases a[v]? <;> simp

/-- Note what an exit from block `u` to block `w` says. -/
def noteExit (order : List Nat) (u : Nat) (state : Array Bool × Array Nat) (w : Nat) :
    Array Bool × Array Nat :=
  if order.idxOf w ≤ order.idxOf u then (state.1.setIfInBounds w true, state.2)
  else (state.1, state.2.modify w (· + 1))

lemma foldl_noteExit (u : Nat) (ws : List Nat) (state : Array Bool × Array Nat) {v : Nat}
    (hv₁ : v < state.1.size) (hv₂ : v < state.2.size) :
    (ws.foldl (noteExit order u) state).1.size = state.1.size ∧
      (ws.foldl (noteExit order u) state).2.size = state.2.size ∧
      ((ws.foldl (noteExit order u) state).1.getD v false = true ↔
        state.1.getD v false = true ∨ v ∈ ws ∧ order.idxOf v ≤ order.idxOf u) ∧
      (ws.foldl (noteExit order u) state).2.getD v 0 = state.2.getD v 0 +
        if order.idxOf u < order.idxOf v then ws.count v else 0 := by
  induction ws generalizing state with
  | nil => simp
  | cons w ws ih =>
    rw [List.foldl_cons, List.mem_cons]
    by_cases hle : order.idxOf w ≤ order.idxOf u
    · have hnote : noteExit order u state w = (state.1.setIfInBounds w true, state.2) := if_pos hle
      obtain ⟨h₁, h₂, h₃, h₄⟩ := ih (noteExit order u state w) (by simpa [hnote]) (by simpa [hnote])
      rw [hnote] at h₁ h₂ h₃ h₄ ⊢
      refine ⟨h₁.trans (Array.size_setIfInBounds ..), h₂, h₃.trans ?_, h₄.trans ?_⟩
      · rw [getD_setIfInBounds]
        by_cases hwv : w = v
        · subst hwv
          simp [hv₁, hle]
        · simp only [hwv, Ne.symm hwv, false_and, if_false, false_or]
      · by_cases hwv : w = v
        · subst hwv
          rw [if_neg (Nat.not_lt_of_le hle), if_neg (Nat.not_lt_of_le hle)]
        · rw [List.count_cons_of_ne hwv]
    · have hnote : noteExit order u state w = (state.1, state.2.modify w (· + 1)) := if_neg hle
      obtain ⟨h₁, h₂, h₃, h₄⟩ := ih (noteExit order u state w) (by simpa [hnote]) (by simpa [hnote])
      rw [hnote] at h₁ h₂ h₃ h₄ ⊢
      refine ⟨h₁, h₂.trans (Array.size_modify ..), h₃.trans ?_, h₄.trans ?_⟩
      · by_cases hwv : w = v
        · subst hwv
          simp only [hle, and_false, or_false]
        · simp only [Ne.symm hwv, false_or]
      · rw [getD_modify]
        by_cases hwv : w = v
        · subst hwv
          rw [if_pos ⟨rfl, hv₂⟩, if_pos (Nat.lt_of_not_le hle), if_pos (Nat.lt_of_not_le hle),
            List.count_cons_self]
          omega
        · rw [if_neg fun hc => hwv hc.1, List.count_cons_of_ne hwv]

lemma foldl_foldl_noteExit (order vs : List Nat) (state : Array Bool × Array Nat) {v : Nat}
    (hv₁ : v < state.1.size) (hv₂ : v < state.2.size) :
    ((vs.foldl (fun state u => (g.targets u).foldl (noteExit order u) state) state).1.getD v
        false = true ↔ state.1.getD v false = true ∨
          ∃ u ∈ vs, g.Edge u v ∧ order.idxOf v ≤ order.idxOf u) ∧
      (vs.foldl (fun state u => (g.targets u).foldl (noteExit order u) state) state).2.getD v 0 =
        state.2.getD v 0 + (vs.map fun u =>
          if order.idxOf u < order.idxOf v then (g.targets u).count v else 0).sum := by
  induction vs generalizing state with
  | nil => simp
  | cons x vs ih =>
    obtain ⟨h₁, h₂, h₃, h₄⟩ := foldl_noteExit x (g.targets x) state hv₁ hv₂
    obtain ⟨h₅, h₆⟩ := ih ((g.targets x).foldl (noteExit order x) state) (h₁ ▸ hv₁) (h₂ ▸ hv₂)
    rw [List.foldl_cons, List.map_cons, List.sum_cons]
    refine ⟨h₅.trans ?_, h₆.trans ?_⟩
    · rw [h₃]
      simp only [List.mem_cons, exists_eq_or_imp, Edge, or_assoc]
    · rw [h₄, Nat.add_assoc]

/-- Every exit back leads to a dominator of its source. -/
def BackDominated (g : Graph B C) (order : List Nat) : Prop :=
  ∀ u ∈ order, ∀ w, g.Edge u w → order.idxOf w ≤ order.idxOf u → g.Dom w u

/-- What is noted about all exits. -/
def notes (g : Graph B C) (order : List Nat) : Array Bool × Array Nat :=
  order.foldl (fun state u => (g.targets u).foldl (noteExit order u) state)
    (Array.replicate g.blocks.size false, Array.replicate g.blocks.size 0)

/-- All exits are noted if none leads back to a block that does not dominate its source. -/
lemma Numbered.classify_eq_ok (h : g.Numbered order) {idom : Array (Option Nat)}
    (hk : Known g order idom) (r : Array Bool × Array Nat) :
    g.classify (g.positions order) idom order = .ok r ↔
      g.BackDominated order ∧ g.notes order = r := by
  refine foldlM_eq_ok (P := fun u => ∀ w ∈ g.targets u, order.idxOf w ≤ order.idxOf u → g.Dom w u)
    (fun state u hu => foldlM_eq_ok (fun state w hw r => ?_) state) _ r
  have hwo := h.mem_of_edge hu hw
  have hlen := (List.idxOf_lt_length_iff.2 hu).trans_le h.length_le
  obtain ⟨header, forward⟩ := state
  rw [h.getD_positions hu, h.getD_positions hwo, noteExit]
  by_cases hle : order.idxOf w ≤ order.idxOf u
  · simp only [if_pos hle]
    rw [← h.dominates_iff_dom hk hu (Nat.lt_succ_of_lt hlen)]
    split
    · next hdom => simp [hdom, hle]
    · next hdom => simp [hdom, hle]
  · simp only [if_neg hle, Except.ok.injEq]
    exact (and_iff_right fun hle' => absurd hle' hle).symm

/-- Put blocks among the children of the blocks that immediately dominate them. -/
lemma foldl_children (idom : Array (Option Nat)) (vs : List Nat) (children : Array (List Nat))
    (d : Nat) :
    (vs.foldl (fun children v =>
      match idom.getD v none with
      | some d => children.modify d (v :: ·)
      | none => children) children).getD d [] =
      (vs.filter fun v => idom.getD v none == some d && decide (d < children.size)).reverse ++
        children.getD d [] := by
  induction vs generalizing children with
  | nil => simp
  | cons v vs ih =>
    rw [List.foldl_cons, List.filter_cons]
    cases hv : idom.getD v none with
    | none =>
      simp only [ih]
      rfl
    | some d' =>
      simp only [ih, getD_modify, Array.size_modify]
      by_cases hdd : d' = d
      · subst hdd
        by_cases hd : d' < children.size <;> simp [hd]
      · simp [hdd]

/-- The facts about dominance of a graph with an order of its reachable blocks. -/
def facts (g : Graph B C) (order : List Nat) : Dominance :=
  ⟨g.positions order, (g.notes order).1, (g.notes order).2.map (2 ≤ ·),
    (order.drop 1).foldl (fun children v =>
      match (g.immediateDominators order).getD v none with
      | some d => children.modify d (v :: ·)
      | none => children) (Array.replicate g.blocks.size [])⟩

namespace Numbered

variable (h : g.Numbered order)
include h

/-- The facts about dominance are found if every exit back leads to a dominator of its source. -/
lemma dominance_eq_ok (ho : order = g.reversePostorder) (d : Dominance) :
    g.dominance = .ok d ↔ g.BackDominated order ∧ g.facts order = d := by
  rw [dominance, ← ho]
  simp only [except_bind_eq_ok, h.classify_eq_ok (settles_immediateDominators h).2]
  constructor
  · rintro ⟨_, ⟨hback, rfl⟩, hd⟩
    exact ⟨hback, Except.ok.inj hd⟩
  · rintro ⟨hback, rfl⟩
    exact ⟨_, ⟨hback, rfl⟩, rfl⟩

omit h in
/-- A block heads a loop if some exit leads back to it. -/
lemma header_facts {v : Nat} (hv : v < g.blocks.size) :
    (g.facts order).header.getD v false = true ↔
      ∃ u ∈ order, g.Edge u v ∧ order.idxOf v ≤ order.idxOf u := by
  rw [facts, notes, (foldl_foldl_noteExit order order _ (by simpa using hv) (by simpa using hv)).1,
    getD_replicate]
  simp

omit h in
/-- A block is a merge if two forward exits lead to it. -/
lemma merge_facts {v : Nat} (hv : v < g.blocks.size) :
    (g.facts order).merge.getD v false = true ↔ 2 ≤ g.forwardExits order v := by
  have hcount := (foldl_foldl_noteExit (g := g) order order
    (Array.replicate g.blocks.size false, Array.replicate g.blocks.size 0) (v := v)
    (by simpa using hv) (by simpa using hv)).2
  rw [getD_replicate, Nat.zero_add] at hcount
  rw [facts, getD_map_le, notes, hcount, forwardExits]

/-- The facts about dominance are right. -/
lemma sound_facts : Sound g order (g.facts order) := by
  have hk := (settles_immediateDominators h).2
  obtain ⟨rest, hrest, hrestmem⟩ := h.exists_rest
  have hdrop : order.drop 1 = rest := by rw [hrest]; rfl
  have hsorted : rest.Pairwise fun a b => order.idxOf a < order.idxOf b := by
    have : order.Pairwise fun a b => order.idxOf a < order.idxOf b := by
      rw [List.pairwise_iff_getElem]
      intro i j hi hj hij
      rw [h.ordered.nodup.idxOf_getElem, h.ordered.nodup.idxOf_getElem]
      exact hij
    rw [hrest] at this
    rw [hrest]
    exact (List.pairwise_cons.1 this).2
  refine ⟨fun v hv => h.getD_positions hv, fun v hv => header_facts (h.lt hv),
    fun v hv => merge_facts (h.lt hv), fun v c => ?_, fun v => ?_⟩ <;> rw [facts, hdrop]
  · rw [foldl_children, getD_replicate, List.append_nil, List.mem_reverse, List.mem_filter,
      hrestmem, Bool.and_eq_true, beq_iff_eq, decide_eq_true_eq, Array.size_replicate, and_assoc]
    refine and_congr_right fun hc => and_congr_right fun hne => ?_
    obtain ⟨d, hd, hidom⟩ := hk c hc hne
    rw [hd, Option.some_inj]
    constructor
    · rintro ⟨rfl, _⟩
      exact hidom
    · exact fun hv => ⟨h.idom_unique hc hidom hv, h.lt (h.idom_lt hc hv).1⟩
  · rw [foldl_children, getD_replicate, List.append_nil, List.pairwise_reverse]
    exact hsorted.filter _

end Numbered

/-- The facts about dominance are found where every cycle has a single entry, and they are right. -/
theorem Laid.sound_dominance (h : g.Laid order) (ho : order = g.reversePostorder) :
    ∃ d, g.dominance = .ok d ∧ Sound g order d :=
  ⟨_, (h.dominance_eq_ok ho _).2 ⟨fun _ hu _ he hle => h.dom_of_retreating hu he hle, rfl⟩,
    h.sound_facts⟩

end Dynarec.Flow.Graph
