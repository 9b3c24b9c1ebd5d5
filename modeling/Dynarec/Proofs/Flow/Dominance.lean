import Dynarec.Proofs.Flow.Classify

/-!
# The analysis of dominance is exact

In every graph the search that numbers the blocks and the rounds over the candidates come to an
end, and the dominators found are the closest ones, also when a cycle has several entries. If no
exit leads back to a block that does not dominate its source, the tree of dominators, the loop
headers and the merges are what they are meant to be.
-/

namespace Dynarec.Flow.Graph

open Relation (ReflTransGen)

variable {B C : Type} {g : Graph B C} {a b d v : Nat}

/-- Every path from the entry to `b`, as a list of blocks, contains `a`. -/
def OnAllPaths (g : Graph B C) (a b : Nat) : Prop :=
  ∀ p : List Nat, (g.entry :: p).IsChain g.Edge →
    (g.entry :: p).getLast (List.cons_ne_nil _ _) = b → a ∈ g.entry :: p

lemma onAllPaths_iff_dom : g.OnAllPaths a b ↔ g.Dom a b := by
  constructor
  · rintro h ⟨hne, hp⟩
    obtain ⟨p, hchain, hlast⟩ := List.exists_isChain_cons_of_relationReflTransGen hp
    have hmem := h p (hchain.imp fun _ _ he => he.1) hlast
    have havoid : ∀ x ∈ p, x ≠ a := hchain.cons_induction (· ≠ a) p (fun _ _ he _ => he.2) hne.symm
    rcases List.mem_cons.1 hmem with ha | ha
    · exact hne ha
    · exact havoid a ha rfl
  · intro h p hchain hlast
    by_contra hmem
    refine h ⟨fun ha => hmem (ha ▸ List.mem_cons_self), ?_⟩
    refine List.relationReflTransGen_of_exists_isChain_cons p ?_ hlast
    refine hchain.imp_of_mem_imp fun x y _ hy he => ⟨he, ?_⟩
    rintro rfl
    exact hmem hy

/-- Of the blocks other than `v` on all paths from the entry to `v`, `d` is the closest one: the
others are on all paths to `d`. -/
structure Closest (g : Graph B C) (d v : Nat) : Prop where
  ne : d ≠ v
  on : g.OnAllPaths d v
  closest : ∀ a, a ≠ v → g.OnAllPaths a v → g.OnAllPaths a d

lemma Numbered.closest_iff_isIdom {order : List Nat} (h : g.Numbered order) (hv : v ∈ order) :
    g.Closest d v ↔ g.IsIdom d v := by
  constructor
  · intro hd
    refine h.isIdom_of_closest hv (onAllPaths_iff_dom.1 hd.on) hd.ne fun a ha hne => ?_
    exact onAllPaths_iff_dom.1 (hd.closest a hne (onAllPaths_iff_dom.2 ha))
  · intro hd
    refine ⟨hd.dom.2, onAllPaths_iff_dom.2 hd.dom.1, fun a hne ha => ?_⟩
    exact onAllPaths_iff_dom.2 ((hd a).2 ⟨onAllPaths_iff_dom.1 ha, hne⟩)

/-- In a graph whose entry and targets are blocks, the loop that searches it ends with the reverse
postorder of the blocks that the entry leads to. The rounds over these blocks end as well, and no
walk in them goes on from a block without a candidate. Then every block but the entry has as its
dominator the one block that is closest to it of those on all paths to it. If the facts about
dominance are found, the children of a block are those that it is the dominator of, a block heads a
loop exactly if an exit leads to it from a block to which it is on all paths, and it is a merge
exactly if two exits lead to it from earlier blocks. -/
theorem dominance_exact (hg : g.InRange) :
    ((∃ s, g.ordering.Reaches g.orderingLoop ⟨s, [], []⟩ ∧ s.finished = g.reversePostorder) ∧
      g.reversePostorder.Nodup ∧ ∀ v, v ∈ g.reversePostorder ↔ g.Leads g.entry v) ∧
    Settles (g.positions g.reversePostorder) (g.predecessors g.reversePostorder)
      (g.reversePostorder.drop 1)
      ((Array.replicate g.blocks.size none).setIfInBounds g.entry (some g.entry))
      (g.immediateDominators g.reversePostorder) ∧
    (∀ v, g.Leads g.entry v → v ≠ g.entry →
      ∃ d, (g.immediateDominators g.reversePostorder).getD v none = some d ∧ g.Closest d v ∧
        ∀ d', g.Closest d' v → d' = d) ∧
    ∀ result, g.dominance = .ok result →
      (∀ v c, c ∈ result.children.getD v [] ↔
        g.Leads g.entry c ∧ c ≠ g.entry ∧ g.Closest v c) ∧
      (∀ v, (result.children.getD v []).Nodup) ∧
      (∀ v < g.blocks.size, result.header.getD v false = true ↔
        ∃ u, g.Leads g.entry u ∧ g.Edge u v ∧ g.OnAllPaths v u) ∧
      ∀ v < g.blocks.size, result.merge.getD v false = true ↔
        2 ≤ g.forwardExits g.reversePostorder v := by
  have h : g.Numbered g.reversePostorder := ⟨hg, ordered_reversePostorder hg⟩
  obtain ⟨hsettles, hknown⟩ := settles_immediateDominators h
  have hmem := h.ordered.mem
  refine ⟨⟨reaches_reversePostorder hg, h.ordered.nodup, hmem⟩, hsettles, fun v hv hne => ?_,
    fun result hresult => ?_⟩
  · have hvo := (hmem v).2 hv
    obtain ⟨d, hd, hidom⟩ := hknown v hvo hne
    exact ⟨d, hd, (h.closest_iff_isIdom hvo).2 hidom, fun d' hd' =>
      h.idom_unique hvo ((h.closest_iff_isIdom hvo).1 hd') hidom⟩
  · obtain ⟨hback, rfl⟩ := (h.dominance_eq_ok rfl result).1 hresult
    have hsound := h.sound_facts
    refine ⟨fun v c => ?_, fun v => ?_, fun v hv => ?_, fun v hv => Numbered.merge_facts hv⟩
    · rw [hsound.children, hmem]
      exact and_congr_right fun hc => and_congr_right fun _ =>
        (h.closest_iff_isIdom ((hmem c).2 hc)).symm
    · refine (hsound.descending v).imp fun hlt => ?_
      rintro rfl
      exact absurd hlt (Nat.lt_irrefl _)
    · rw [Numbered.header_facts hv]
      refine exists_congr fun u => ?_
      rw [hmem, onAllPaths_iff_dom]
      refine and_congr_right fun hu => and_congr_right fun he => ?_
      exact ⟨hback u ((hmem u).2 hu) v he, h.idxOf_le ((hmem u).2 hu)⟩

deriving instance DecidableEq for Dominance

/-- The entry leads to blocks 1 and 2, and blocks 3, 4 and 5 lead to each other by a row of exits in
both directions, which is entered at both ends. -/
def ladder : Graph Unit Unit where
  blocks := #[⟨some (), [⟨some (.cond ()), 2, none⟩, ⟨none, 1, none⟩], false⟩,
    ⟨some (), [⟨none, 5, none⟩], false⟩,
    ⟨some (), [⟨some (.cond ()), 3, none⟩, ⟨none, 4, none⟩], false⟩,
    ⟨some (), [⟨none, 4, none⟩], false⟩,
    ⟨some (), [⟨some (.cond ()), 3, none⟩, ⟨none, 5, none⟩], false⟩,
    ⟨some (), [⟨none, 4, none⟩], false⟩]
  entry := 0

/-- Block 1 leads to block 4 by block 2 and by block 3, and block 4 leads back. -/
def rejoin : Graph Unit Unit where
  blocks := #[⟨some (), [⟨none, 1, none⟩], false⟩,
    ⟨some (), [⟨some (.cond ()), 2, none⟩, ⟨none, 3, none⟩], false⟩,
    ⟨some (), [⟨none, 4, none⟩], false⟩, ⟨some (), [⟨none, 4, none⟩], false⟩,
    ⟨some (), [⟨some (.cond ()), 1, none⟩, ⟨none, 5, none⟩], false⟩, ⟨some (), [], false⟩]
  entry := 0

/-- Three rounds that change candidates find that only the entry is on all paths to the blocks of
the row. In the other graph the tree, the header of the loop and the merge are found. -/
theorem dominance_exact_ladder :
    ladder.InRange ∧ (∀ v, ladder.Leads 0 v → v ≠ 0 → ladder.Closest 0 v) ∧
      rejoin.InRange ∧
      rejoin.dominance = .ok ⟨#[0, 1, 3, 2, 4, 5], #[false, true, false, false, false, false],
        #[false, false, false, false, true, false], #[[1], [4, 2, 3], [], [], [5], []]⟩ ∧
      (∀ c ∈ [2, 3, 4], rejoin.Closest 1 c) ∧
      (∃ u, rejoin.Leads 0 u ∧ rejoin.Edge u 1 ∧ rejoin.OnAllPaths 1 u) ∧
      2 ≤ rejoin.forwardExits rejoin.reversePostorder 4 := by
  have hto : ∀ u < 6, ∀ w ∈ ladder.targets u, w < 6 := by decide
  have hto' : ∀ u < 6, ∀ w ∈ rejoin.targets u, w < 6 := by decide
  have hl : ladder.InRange := ⟨by decide, fun {u w} he => hto u he.lt w he⟩
  have hr : rejoin.InRange := ⟨by decide, fun {u w} he => hto' u he.lt w he⟩
  have hidoms : ladder.immediateDominators ladder.reversePostorder =
      Array.replicate 6 (some 0) := by decide +kernel
  have hfacts : rejoin.dominance = .ok ⟨#[0, 1, 3, 2, 4, 5],
      #[false, true, false, false, false, false], #[false, false, false, false, true, false],
      #[[1], [4, 2, 3], [], [], [5], []]⟩ := by decide +kernel
  obtain ⟨-, -, hclosest, -⟩ := dominance_exact hl
  obtain ⟨-, -, -, hsuccess⟩ := dominance_exact hr
  obtain ⟨hchildren, -, hheader, hmerge⟩ := hsuccess _ hfacts
  refine ⟨hl, fun v hv hne => ?_, hr, hfacts, fun c hc => ((hchildren 1 c).1 ?_).2.2,
    (hheader 1 (by decide)).1 rfl, (hmerge 4 (by decide)).1 rfl⟩
  · obtain ⟨d, hd, hv, -⟩ := hclosest v hv hne
    have hlt : v < 6 := by
      by_contra hge
      simp [hidoms, Array.getD_eq_getD_getElem?, hge] at hd
    simp only [hidoms, Array.getD_eq_getD_getElem?, Array.getElem?_replicate, hlt, if_true,
      Option.getD_some, Option.some_inj] at hd
    exact hd ▸ hv
  · revert c
    decide

end Dynarec.Flow.Graph
