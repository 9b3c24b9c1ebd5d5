import Dynarec.Proofs.Flow.Components
import Dynarec.Proofs.Flow.Traversal

/-!
# Strongly connected components

What `Graph.components` lists are the strongly connected components of a region: two blocks are in
one list exactly if each leads to the other inside the region, and a component is listed after all
others that it leads to. The loop that keeps the blocks being visited on a stack of its own ends,
and with this list.
-/

namespace Dynarec.Flow

open Relation (ReflTransGen)

variable {B C : Type} {g : Graph B C} {region : Array Bool}

/-! ### The search as a loop -/

namespace Search

/-- The search for the components of a region. -/
def traversal (g : Graph B C) (region : Array Bool) : Traversal Search where
  targets := g.targets
  fresh s v := region.getD v false && (s.num v).isNone
  enter v s := s.enter v
  pass v w s := if region.getD w false && s.onStack.getD w false then s.lower v (s.ord w) else s
  leave v s := s.close v
  back v w s := s.lower v (s.lowest w)

/-- An exit is looked at in the same way, whatever visits a block. -/
lemma look_eq (visit : Nat → Search → Search) (v : Nat) :
    look region visit v = (traversal g region).look visit v := by
  funext s w
  have hfresh : (traversal g region).fresh s w = (region.getD w false && (s.num w).isNone) := rfl
  have hpass : (traversal g region).pass v w s =
      if region.getD w false && s.onStack.getD w false then s.lower v (s.ord w) else s := rfl
  rw [look, Traversal.look, hfresh, hpass]
  by_cases hr : region.getD w false = true
  · cases hn : s.num w with
    | none =>
      simp only [hr, Bool.not_true, Bool.false_eq_true, if_false, Option.isNone_none,
        Bool.and_self, if_true]
      rfl
    | some n => simp only [hr, (seen_of_num hn).2, Bool.not_true, Bool.false_eq_true, if_false,
        Option.isNone_some, Bool.and_false, Bool.true_and]
  · simp only [hr, Bool.not_false, if_true, Bool.false_and, Bool.false_eq_true, if_false]

lemma visit_eq (fuel : Nat) : g.visit region fuel = (traversal g region).visit fuel := by
  induction fuel with
  | zero => rfl
  | succ fuel ih =>
    funext v s
    rw [visit_succ, ih, look_eq]
    rfl

lemma seek_eq : seek g region = (traversal g region).seek g.blocks.size := by
  funext s v
  unfold seek Traversal.seek
  rw [visit_eq]
  rfl

@[simp] lemma number_close (s : Search) (v : Nat) : (s.close v).number = s.number := by
  unfold close
  split <;> rfl

/-- Only entering a block discovers one. -/
lemma discovers (hg : ∀ {u w}, g.Edge u w → w < g.blocks.size) :
    (traversal g region).Discovers (·.number.size = g.blocks.size) (· < g.blocks.size) unseen where
  target _ _ hw := hg hw
  enter s v hs hv hf := by
    have hn : ¬s.Seen v := by
      rw [Seen, not_not]
      exact Option.isNone_iff_eq_none.1 ((Bool.and_eq_true _ _).mp hf).2
    have hunseen := unseen_enter (hs ▸ hv) hn
    refine ⟨?_, ?_⟩
    · simpa [traversal, enter] using hs
    · change (s.enter v).unseen < s.unseen
      omega
  pass s v w hs := by
    dsimp only [traversal]
    split <;> exact ⟨hs, rfl⟩
  leave s v hs := by
    dsimp only [traversal, unseen]
    rw [number_close]
    exact ⟨hs, rfl⟩
  back _ _ _ hs := ⟨hs, rfl⟩

/-- The loop over all blocks of a region, of which none is discovered. -/
def loop (g : Graph B C) (region : Array Bool) : Traversal.Loop Search :=
  ⟨start g.blocks.size, [], (List.range g.blocks.size).filter (region.getD · false)⟩

/-- Only blocks of the region are visited. -/
lemma foldl_seek_filter (vs : List Nat) (s : Search) :
    (vs.filter (region.getD · false)).foldl ((traversal g region).seek g.blocks.size) s =
      vs.foldl (seek g region) s := by
  rw [List.foldl_filter, ← seek_eq]
  congr 1
  funext s v
  unfold seek
  cases region.getD v false <;> rfl

/-- The loop ends with the components. -/
lemma reaches_components (hg : ∀ {u w}, g.Edge u w → w < g.blocks.size) :
    ∃ s, (traversal g region).Reaches (loop g region) ⟨s, [], []⟩ ∧
      s.components.toList = g.components region := by
  have hunseen : (start g.blocks.size).unseen ≤ g.blocks.size := by
    rw [unseen, start, Array.count_replicate_self]
  refine ⟨_, (discovers hg).reaches_seek (fun v hv => ?_) (by simp [start]) hunseen, ?_⟩
  · exact List.mem_range.1 (List.mem_filter.1 hv).1
  · rw [foldl_seek_filter]
    rfl

/-- No component is empty. -/
lemma ne_nil_of_mem_components {c : List Nat} (hc : c ∈ g.components region) : c ≠ [] := by
  have hvisit : ∀ fuel v s, (∀ c ∈ s.components, c ≠ []) →
      ∀ c ∈ ((traversal g region).visit fuel v s).components, c ≠ [] := by
    intro fuel v s hs
    refine Traversal.visit_keeps (P := fun s : Search => ∀ c ∈ s.components, c ≠ [])
      (fun _ _ h => h) (fun v w s h => ?_) (fun v s h => ?_) (fun _ _ _ h => h) hs
    · dsimp only [traversal]
      split <;> exact h
    · dsimp only [traversal, close]
      split
      · intro c hc
        rcases Array.mem_push.1 hc with hc | rfl
        · exact h c hc
        · exact List.append_ne_nil_of_right_ne_nil _ (List.cons_ne_nil _ _)
      · exact h
  have hfold : ∀ c ∈ ((List.range g.blocks.size).foldl (seek g region)
      (start g.blocks.size)).components, c ≠ [] := by
    refine List.foldlRecOn (motive := fun s : Search => ∀ c ∈ s.components, c ≠ []) _ _
      (fun c hc => absurd hc (Array.not_mem_empty c)) fun s hs v _ => ?_
    rw [seek_eq, Traversal.seek]
    split
    · exact hvisit _ v s hs
    · exact hs
  exact hfold c (Array.mem_toList_iff.1 hc)

end Search

/-! ### What is listed -/

namespace Graph

variable {cs : List (List Nat)}

/-- What a component leads to is in it or in an earlier one. -/
lemma Parted.of_leadsIn (h : g.Parted region cs) {pre post : List (List Nat)} {c : List Nat}
    (heq : cs = pre ++ c :: post) {v w : Nat} (hv : v ∈ c) (hl : g.LeadsIn region v w) :
    w ∈ c ∨ ∃ c' ∈ pre, w ∈ c' := by
  induction hl with
  | refl => exact .inl hv
  | @tail u w _ he ih =>
    rcases ih with hu | ⟨c', hc', hu⟩
    · exact h.back pre c post heq u hu w he
    · obtain ⟨pre', post', rfl⟩ := List.append_of_mem hc'
      have heq' : cs = pre' ++ c' :: (post' ++ c :: post) := by rw [heq, List.append_assoc]; rfl
      rcases h.back pre' c' _ heq' u hu w he with hw | ⟨c'', hc'', hw⟩
      · exact .inr ⟨c', hc', hw⟩
      · exact .inr ⟨c'', List.mem_append_left _ hc'', hw⟩

/-- Blocks that lead to each other are in one component. -/
lemma Parted.mem_of_leadsIn (h : g.Parted region cs) {c : List Nat} (hc : c ∈ cs) {v w : Nat}
    (hv : v ∈ c) (hvw : g.LeadsIn region v w) (hwv : g.LeadsIn region w v) : w ∈ c := by
  obtain ⟨pre, post, heq⟩ := List.append_of_mem hc
  refine (h.of_leadsIn heq hv hvw).resolve_right ?_
  -- in an earlier component, `w` would lead to none that is as late as that of `v`
  rintro ⟨c', hc', hw⟩
  obtain ⟨pre', post', rfl⟩ := List.append_of_mem hc'
  have hdisjoint := h.disjoint
  rw [heq, List.append_assoc, List.cons_append, List.pairwise_append] at hdisjoint
  have heq' : cs = pre' ++ c' :: (post' ++ c :: post) := by rw [heq, List.append_assoc]; rfl
  rcases h.of_leadsIn heq' hw hwv with hv' | ⟨c'', hc'', hv'⟩
  · exact (List.pairwise_cons.1 hdisjoint.2.1).1 c (by simp) hv' hv
  · exact hdisjoint.2.2 c'' hc'' c (by simp) hv' hv

/-- The loop that searches a region ends with the list of its components. Each is a list of blocks
without repetition that is not empty, and the blocks of the region are in one component each. Two
blocks of the region are in the same one exactly if each leads to the other by exits between blocks
of the region. What a component leads to inside the region is in it or in one that is listed before
it. -/
theorem components_exact (hg : ∀ {u w}, g.Edge u w → w < g.blocks.size) (region : Array Bool) :
    (∃ s, (Search.traversal g region).Reaches (Search.loop g region) ⟨s, [], []⟩ ∧
      s.components.toList = g.components region) ∧
    (∀ c ∈ g.components region, c ≠ [] ∧ c.Nodup) ∧
    (g.components region).Pairwise List.Disjoint ∧
    (∀ v, (∃ c ∈ g.components region, v ∈ c) ↔ v < g.blocks.size ∧ region.getD v false = true) ∧
    (∀ v w, (∃ c ∈ g.components region, v ∈ c ∧ w ∈ c) ↔
      (v < g.blocks.size ∧ region.getD v false = true) ∧
        g.LeadsIn region v w ∧ g.LeadsIn region w v) ∧
    ∀ pre c post, g.components region = pre ++ c :: post →
      ∀ v ∈ c, ∀ w, g.LeadsIn region v w → w ∈ c ∨ ∃ c' ∈ pre, w ∈ c' := by
  have h := parted_components hg region
  refine ⟨Search.reaches_components hg,
    fun c hc => ⟨Search.ne_nil_of_mem_components hc, h.nodup c hc⟩, h.disjoint, h.mem,
    fun v w => ⟨?_, ?_⟩, fun pre c post heq v hv w hl => h.of_leadsIn heq hv hl⟩
  · rintro ⟨c, hc, hv, hw⟩
    exact ⟨(h.mem v).1 ⟨c, hc, hv⟩, h.strong c hc v hv w hw, h.strong c hc w hw v hv⟩
  · rintro ⟨hv, hvw, hwv⟩
    obtain ⟨c, hc, hvc⟩ := (h.mem v).2 hv
    exact ⟨c, hc, hvc, h.mem_of_leadsIn hc hvc hvw hwv⟩

/-- Blocks 1 and 2 lead to each other, the one by two exits and the other also to itself. Block 3
behind them leads back to them by block 4. -/
def detour : Graph Unit Unit where
  blocks := #[⟨some (), [⟨none, 1, none⟩], false⟩,
    ⟨some (), [⟨some (.cond ()), 2, none⟩, ⟨none, 2, none⟩], false⟩,
    ⟨some (), [⟨some (.cond ()), 2, none⟩, ⟨some (.cond ()), 1, none⟩, ⟨none, 3, none⟩], false⟩,
    ⟨some (), [⟨none, 4, none⟩], false⟩, ⟨some (), [⟨none, 1, none⟩], false⟩]
  entry := 0

/-- In a region without block 4, block 3 is a component of its own, which comes first. -/
theorem components_exact_detour :
    (∀ {u w}, detour.Edge u w → w < detour.blocks.size) ∧
      detour.components #[false, true, true, true, false] = [[3], [2, 1]] ∧
      detour.LeadsIn #[false, true, true, true, false] 1 2 ∧
      detour.LeadsIn #[false, true, true, true, false] 2 1 ∧
      detour.Leads 3 1 ∧ ¬detour.LeadsIn #[false, true, true, true, false] 3 1 := by
  have hto : ∀ u < 5, ∀ w ∈ detour.targets u, w < 5 := by decide
  have hg : ∀ {u w}, detour.Edge u w → w < detour.blocks.size := fun {u w} he => hto u he.lt w he
  have hcs : detour.components #[false, true, true, true, false] = [[3], [2, 1]] := by
    decide +kernel
  obtain ⟨-, -, -, -, hsame, hlater⟩ := components_exact hg #[false, true, true, true, false]
  rw [hcs] at hsame hlater
  obtain ⟨-, h₁₂, h₂₁⟩ := (hsame 1 2).1 ⟨[2, 1], by simp, by simp, by simp⟩
  refine ⟨hg, hcs, h₁₂, h₂₁, ?_, fun h₃₁ => ?_⟩
  · have h₃₄ : detour.Leads 3 4 := .single (show 4 ∈ detour.targets 3 by decide)
    exact h₃₄.tail (show 1 ∈ detour.targets 4 by decide)
  · rcases hlater [] [3] [[2, 1]] rfl 3 (by simp) 1 h₃₁ with h | ⟨c, hc, -⟩
    · simp at h
    · cases hc

end Graph

end Dynarec.Flow
