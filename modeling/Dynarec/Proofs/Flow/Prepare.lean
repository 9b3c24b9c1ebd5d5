import Dynarec.Flow.Placement
import Dynarec.Proofs.Flow.Charges

/-!
# Prepared graphs

Before a graph is laid out, blocks that are never reached lose their exits, an entry that some exit
leads to gets a fresh block before it, and cycles with several entries get dispatchers. In the graph
that is laid out no exit leads to the entry and every cycle has a single entry. `Prepared` says that
every block of it that is reached goes on or returns, and that runs end as in the old graph, with the
same charges for jumps back.
-/

namespace Dynarec.Flow.Graph

open Relation (ReflTransGen TransGen)

variable {B C ε σ : Type} {g : Graph B C} {v : Shape.Visitor B C ε σ} {n : Nat}

/-- A graph of a program: no exit looks at the dispatch variable or sets it. -/
def Plain (g : Graph B C) : Prop :=
  ∀ n, ∀ e ∈ g.exits n, e.dispatch = none ∧ ∀ id, e.test ≠ some (.dispatchIs id)

/-! ### Blocks that are never reached -/

lemma exits_prune (hg : g.InRange) (n : Nat) (hn : g.Leads g.entry n) :
    g.prune.exits n = g.exits n := by
  simp only [exits, prune, Array.getElem?_mapIdx]
  rw [(reachable_iff hg).2 hn]
  cases g.blocks[n]? <;> rfl

lemma exits_prune_nil (hg : g.InRange) (n : Nat) (hn : ¬ g.Leads g.entry n) :
    g.prune.exits n = [] := by
  have hr : g.reachable.getD n false = false := by
    rw [← Bool.not_eq_true]
    exact fun h => hn ((reachable_iff hg).1 h)
  simp only [exits, prune, Array.getElem?_mapIdx, hr]
  cases g.blocks[n]? <;> rfl

lemma runBody_prune (g : Graph B C) (v : Shape.Visitor B C ε σ) (n : Nat) :
    g.prune.runBody v n = g.runBody v n := by
  simp only [runBody, prune, Array.getElem?_mapIdx]
  cases g.reachable.getD n false <;> rcases g.blocks[n]? with _ | ⟨_ | b, _, _⟩ <;> rfl

lemma edge_prune (hg : g.InRange) {u w : Nat} :
    g.prune.Edge u w ↔ g.Leads g.entry u ∧ g.Edge u w := by
  by_cases hu : g.Leads g.entry u
  · simp only [hu, true_and, Edge, targets, exits_prune hg u hu]
  · simp only [hu, false_and, iff_false, Edge, targets, exits_prune_nil hg u hu]
    simp

lemma size_prune (g : Graph B C) : g.prune.blocks.size = g.blocks.size := by simp [prune]

lemma inRange_prune (hg : g.InRange) : g.prune.InRange where
  entry := by
    rw [size_prune]
    exact hg.entry
  target he := by
    rw [size_prune]
    exact hg.target ((edge_prune hg).1 he).2

lemma leads_prune (hg : g.InRange) (h : g.Leads g.entry n) : g.prune.Leads g.entry n := by
  induction h with
  | refl => exact .refl
  | tail hu he ih => exact ih.tail ((edge_prune hg).2 ⟨hu, he⟩)

lemma leads_of_prune (hg : g.InRange) {u w : Nat} (h : g.prune.Leads u w) : g.Leads u w :=
  ReflTransGen.mono (fun _ _ he => ((edge_prune hg).1 he).2) _ _ h

lemma live_prune (hg : g.InRange) : g.prune.Live = g.Live := by
  funext u w
  refine propext ⟨fun he => (edge_prune hg).1 he.2, fun he => ?_⟩
  exact ⟨leads_prune hg he.1, (edge_prune hg).2 he⟩

/-- Runs from reached blocks meet only such blocks. -/
lemma ends_prune (hg : g.InRange) {d : Nat} {s : σ}
    {r : EStateM.Result (Halt ε) σ (Option UInt64)} (hn : g.Leads g.entry n) :
    g.Ends v g.charges n d s r ↔ g.prune.Ends v g.prune.charges n d s r := by
  have hcharges : ∀ n t, g.prune.charges n t = g.charges n t := by
    intro n t
    apply charges_congr
    rw [live_prune hg]
    rfl
  exact ends_congr (P := g.Leads g.entry)
    (fun n hn d s => by simp only [pick, runBody_prune, exits_prune hg n hn])
    (fun _ hn _ he => hn.tail (edge_of_mem he)) (fun n _ e _ => hcharges n e.target) hn

/-! ### A fresh entry -/

/-- Put a block without a body before the entry. -/
def prepend (g : Graph B C) : Graph B C :=
  ⟨g.blocks.push ⟨none, [⟨none, g.entry, none⟩], false⟩, g.blocks.size⟩

lemma withFreshEntry_eq (g : Graph B C) :
    g.withFreshEntry = g ∧ (∀ u, ¬ g.Edge u g.entry) ∨ g.withFreshEntry = g.prepend := by
  unfold withFreshEntry
  split
  · exact .inr rfl
  · next h =>
    refine .inl ⟨rfl, fun u he => h ?_⟩
    rw [List.any_eq_true]
    exact ⟨u, List.mem_range.2 he.lt, List.contains_iff_mem.2 he⟩

lemma exits_prepend (hn : n < g.blocks.size) : g.prepend.exits n = g.exits n := by
  simp only [exits, prepend, Array.getElem?_push, hn.ne, if_false]

lemma exits_prepend_entry (g : Graph B C) :
    g.prepend.exits g.blocks.size = [⟨none, g.entry, none⟩] := by
  simp only [exits, prepend, Array.getElem?_push, if_true]

lemma runBody_prepend (hn : n < g.blocks.size) : g.prepend.runBody v n = g.runBody v n := by
  simp only [runBody, prepend, Array.getElem?_push, hn.ne, if_false]

lemma size_prepend (g : Graph B C) : g.prepend.blocks.size = g.blocks.size + 1 :=
  Array.size_push ..

lemma edge_prepend {u w : Nat} :
    g.prepend.Edge u w ↔ g.Edge u w ∨ u = g.blocks.size ∧ w = g.entry := by
  rcases Nat.lt_trichotomy u g.blocks.size with hu | rfl | hu
  · simp [Edge, targets, exits_prepend hu, hu.ne]
  · have : ¬ g.Edge g.blocks.size w := fun h => h.lt.false
    simp only [this, false_or, true_and]
    simp [Edge, targets, exits_prepend_entry]
  · have h₁ : ¬ g.Edge u w := fun h => h.lt.not_gt hu
    have h₂ : ¬ g.prepend.Edge u w := fun h => by
      have := h.lt
      rw [size_prepend] at this
      omega
    simp [h₁, h₂, hu.ne']

lemma rooted_prepend (hg : g.InRange) : g.prepend.Rooted where
  entry := by
    rw [size_prepend]
    exact Nat.lt_succ_self _
  target he := by
    rw [size_prepend]
    rcases edge_prepend.1 he with he | ⟨_, rfl⟩
    · exact Nat.lt_succ_of_lt (hg.target he)
    · exact Nat.lt_succ_of_lt hg.entry
  start u he := by
    rcases edge_prepend.1 he with he | ⟨_, he⟩
    · exact (hg.target he).false
    · exact hg.entry.ne he.symm

/-- The fresh entry leads to all that the old one does, and to nothing else. -/
lemma leads_prepend : g.prepend.Leads g.blocks.size n ↔ n = g.blocks.size ∨ g.Leads g.entry n := by
  constructor
  · intro hn
    induction hn with
    | refl => exact .inl rfl
    | tail _ he ih =>
      rcases edge_prepend.1 he with he | ⟨_, rfl⟩
      · rcases ih with rfl | ih
        · exact absurd he.lt (lt_irrefl _)
        · exact .inr (ih.tail he)
      · exact .inr .refl
  · rintro (rfl | hn)
    · exact .refl
    · refine .head (edge_prepend.2 (.inr ⟨rfl, rfl⟩)) ?_
      exact ReflTransGen.mono (fun _ _ he => edge_prepend.2 (.inl he)) _ _ hn

lemma live_prepend {u w : Nat} :
    g.prepend.Live u w ↔ g.Live u w ∨ u = g.blocks.size ∧ w = g.entry := by
  have hleads : g.prepend.Leads g.prepend.entry u ↔ u = g.blocks.size ∨ g.Leads g.entry u :=
    leads_prepend
  rw [Live, Live, hleads, edge_prepend]
  constructor
  · rintro ⟨rfl | hu, he | he⟩
    · exact absurd he.lt (lt_irrefl _)
    · exact .inr he
    · exact .inl ⟨hu, he⟩
    · exact .inr he
  · rintro (⟨hu, he⟩ | he)
    · exact ⟨.inr hu, .inl he⟩
    · exact ⟨.inl he.1, .inr he⟩

/-- No exit leads back to the fresh entry or from it. -/
lemma charges_prepend (hg : g.InRange) (n t : Nat) : g.prepend.charges n t = g.charges n t :=
  charges_congr (back_prepend (fun _ _ => live_prepend) (fun _ he => (hg.target he.2).false)
    hg.entry.ne')

lemma ends_prepend (hg : g.InRange) {d : Nat} {s : σ}
    {r : EStateM.Result (Halt ε) σ (Option UInt64)} (hn : n < g.blocks.size) :
    g.Ends v g.charges n d s r ↔ g.prepend.Ends v g.prepend.charges n d s r :=
  ends_congr (P := (· < g.blocks.size))
    (fun n hn d s => by simp only [pick, runBody_prepend hn, exits_prepend hn])
    (fun _ _ _ he => hg.target (edge_of_mem he)) (fun n _ e _ => charges_prepend hg n e.target) hn

/-- A run from the fresh entry goes on with the old one. -/
lemma ends_prepend_entry (hg : g.InRange) {d : Nat} {s : σ}
    {r : EStateM.Result (Halt ε) σ (Option UInt64)} :
    g.Ends v g.charges g.entry d s r ↔
      g.prepend.Ends v g.prepend.charges g.blocks.size d s r := by
  have hpick : g.prepend.pick v g.blocks.size d s =
      .ok (.inr (some ⟨none, g.entry, none⟩)) s := by
    have hbody : g.prepend.runBody v g.blocks.size = return none := by
      simp only [runBody, prepend, Array.getElem?_push, if_true]
    rw [pick, hbody, exits_prepend_entry]
    rfl
  have hfree : g.prepend.charges g.blocks.size g.entry = 0 := by
    rw [charges_prepend hg]
    exact charges_eq_zero fun hb => hb.1.2.lt.false
  rw [ends_iff_of_pick hpick]
  simp only [hfree, endsAfter_zero, ends_prepend hg hg.entry, Option.getD_none]

/-! ### The graph that is laid out -/

/-- The graph that is laid out. -/
def prepared (g : Graph B C) : Graph B C := g.prune.withFreshEntry.splitIrreducible

/-- A graph of a program without exits from blocks that are not reached and to the entry. -/
structure Trimmed (g : Graph B C) : Prop extends g.Rooted where
  plain : g.Plain
  reached : g.Reached

lemma plain_prune (hg : g.InRange) (hplain : g.Plain) : g.prune.Plain := by
  intro n e he
  by_cases hn : g.Leads g.entry n
  · rw [exits_prune hg n hn] at he
    exact hplain n e he
  · rw [exits_prune_nil hg n hn] at he
    cases he

lemma trimmed_prepend (hg : g.InRange) (hplain : g.Plain)
    (hreached : g.Reached) : g.prepend.Trimmed where
  toRooted := rooted_prepend hg
  plain n e he := by
    rcases Nat.lt_trichotomy n g.blocks.size with hn | rfl | hn
    · rw [exits_prepend hn] at he
      exact hplain n e he
    · rw [exits_prepend_entry] at he
      obtain rfl := List.mem_singleton.1 he
      exact ⟨rfl, by simp⟩
    · have := (edge_of_mem he).lt
      rw [size_prepend] at this
      omega
  reached u w he := by
    refine leads_prepend.2 ?_
    rcases edge_prepend.1 he with he | ⟨rfl, _⟩
    · exact .inr (hreached u w he)
    · exact .inl rfl

/-- Taking exits away and putting a fresh entry before the first block trims a graph. -/
lemma trimmed_withFreshEntry (hg : g.InRange) (hplain : g.Plain) :
    g.prune.withFreshEntry.Trimmed := by
  have hreached : ∀ u w, g.prune.Edge u w → g.prune.Leads g.entry u := fun u w he =>
    leads_prune hg ((edge_prune hg).1 he).1
  rcases withFreshEntry_eq g.prune with ⟨heq, hstart⟩ | heq <;> rw [heq]
  · exact ⟨⟨inRange_prune hg, hstart⟩, plain_prune hg hplain, hreached⟩
  · exact trimmed_prepend (inRange_prune hg) (plain_prune hg hplain) hreached

/-- What the entry reaches is a region that the fuel for splitting is enough for. -/
lemma bounded_reachable (hg : g.InRange) : g.Bounded g.reachable (g.blocks.size + 1) where
  reached x hx := by
    have hlead := (reachable_iff hg).1 hx
    exact ⟨Leads.lt hg hg.entry hlead, hlead⟩
  few := by
    refine ⟨List.range g.blocks.size, by simp, fun x hx => ?_⟩
    obtain ⟨y, he, _⟩ := TransGen.head'_iff.1 hx
    exact List.mem_range.2 he.2.2.lt

/-- Splitting carves what the entry reaches. -/
lemma Rooted.carved (h : g.Rooted) :
    ∃ A, (∀ x, x < g.blocks.size → (A x ↔ g.Leads g.entry x)) ∧ Carved g A g.splitIrreducible := by
  obtain ⟨A, hA, hcarved⟩ := splits_split (g.blocks.size + 1) g.reachable g h
    (bounded_reachable h.toInRange)
  exact ⟨A, fun x hx => (hA x hx).trans (reachable_iff h.toInRange), hcarved⟩

/-- Splitting keeps which blocks are reached. -/
lemma Trimmed.leads_split (h : g.Trimmed) (hn : n < g.blocks.size) :
    g.splitIrreducible.Leads g.entry n ↔ g.Leads g.entry n := by
  obtain ⟨A, hA, hcarved⟩ := h.toRooted.carved
  refine ⟨fun hlead => ?_, hcarved.leads_of_leads⟩
  rcases hlead.cases_tail with rfl | ⟨u, _, he⟩
  · exact .refl
  · by_cases hAn : A n
    · exact (hA n hn).1 hAn
    · have he := (hcarved.frame u n hAn).1 he
      exact (h.reached u n he).tail he

/-- Every cycle of a split graph has a single entry. -/
lemma Trimmed.reducible_split (h : g.Trimmed) : g.splitIrreducible.Reducible fun _ => True := by
  obtain ⟨A, hA, hcarved⟩ := h.toRooted.carved
  intro X hX _
  obtain ⟨S, hd, hXS, _, hXhd, hS⟩ := hcarved.reducible X hX fun x hx => by
    obtain ⟨y, ⟨_, _, he⟩, _⟩ := TransGen.head'_iff.1 (hX.leads x x hx hx)
    by_contra hx
    -- outside of `A` there are no exits
    have hold : ∃ e, g.Edge x e := by
      by_cases hy : A y
      · obtain ⟨e, _, he⟩ := hcarved.into x y hx hy he
        exact ⟨e, he⟩
      · exact ⟨y, (hcarved.frame x y hy).1 he⟩
    obtain ⟨e, he⟩ := hold
    exact hx ((hA x he.lt).2 (h.reached x e he))
  exact ⟨S, hd, hXS, fun _ _ => trivial, hXhd, hS⟩

/-- What is laid out has no exits to its entry, and every cycle of it has a single entry. -/
theorem reducible_prepared (hg : g.InRange) (hplain : g.Plain) :
    g.prepared.Rooted ∧ g.prepared.Reducible fun _ => True := by
  have htrim := trimmed_withFreshEntry hg hplain
  obtain ⟨A, _, hcarved⟩ := htrim.toRooted.carved
  exact ⟨hcarved.rooted htrim.toRooted, htrim.reducible_split⟩

/-- What the runs of a graph that is laid out are, seen from the graph that it is made from. -/
structure Prepared (v : Shape.Visitor B C ε σ) (g h : Graph B C) : Prop where
  proceeds : ∀ n, h.Leads h.entry n → h.Proceeds v n
  ends : ∀ s r, g.Ends v g.charges g.entry 0 s r ↔ h.Ends v h.charges h.entry 0 s r

lemma Plain.dispatching (h : g.Plain) (hg : g.InRange) : g.Dispatching g.blocks.size where
  le := le_rfl
  complete _ _ hn he := absurd (hg.target he) (Nat.not_lt_of_le hn)
  plain n _ e he := (h n e he).2
  set _ _ he hle := absurd (hg.target (edge_of_mem he)) (Nat.not_lt_of_le hle)

/-- Splitting a trimmed graph keeps how its runs end. -/
lemma Trimmed.carried (h : g.Trimmed) (v : Shape.Visitor B C ε σ) :
    Carried v g.blocks.size (fun x => g.reachable.getD x false = true) g g.splitIrreducible := by
  have hreach : ∀ x, g.reachable.getD x false = true ↔ g.Leads g.entry x := fun x =>
    reachable_iff h.toInRange
  have hedge : g.EdgeIn g.reachable = g.Edge := by
    funext u w
    simp only [EdgeIn, hreach, eq_iff_iff]
    exact ⟨fun he => he.2.2, fun he => ⟨h.reached u w he, (h.reached u w he).tail he, he⟩⟩
  refine carries_split v g.blocks.size (g.blocks.size + 1) g.reachable g 0
    (h.plain.dispatching h.toInRange) h.toRooted h.reached
    (fun x hx => Leads.lt h.toInRange h.entry ((hreach x).1 hx)) fun x hx => ?_
  rw [hedge] at hx ⊢
  exact ⟨x, hx, fun _ => Iff.rfl⟩

/-- Splitting the cycles of a trimmed graph prepares it. -/
lemma Trimmed.prepared_split (h : g.Trimmed)
    (hproc : ∀ n, g.Leads g.entry n → g.Proceeds v n) : Prepared v g g.splitIrreducible := by
  obtain ⟨A, _, hcarved⟩ := h.toRooted.carved
  have hcarried := h.carried v
  refine ⟨fun n hn => ?_, fun s r => ?_⟩
  · rcases Nat.lt_or_ge n g.blocks.size with hlt | hge
    · rw [hcarved.entry] at hn
      exact hcarried.proceeds n hlt (hproc n ((h.leads_split hlt).1 hn))
    · rcases hn.cases_tail with rfl | ⟨u, _, he⟩
      · rw [hcarved.entry] at hge
        exact absurd h.entry (Nat.not_lt_of_le hge)
      · exact .inl (hcarried.dispatching.complete u n hge he)
  · rw [hcarved.entry]
    exact hcarried.ends g.entry h.entry 0 s r

/-- A graph is prepared, if its blocks that are reached go on or return. -/
theorem prepared_prepared (hg : g.InRange) (hplain : g.Plain)
    (hproc : ∀ n, g.Leads g.entry n → g.Proceeds v n) : Prepared v g g.prepared := by
  have htrim := trimmed_withFreshEntry hg hplain
  have hprune : ∀ n, g.prune.Leads g.entry n → g.prune.Proceeds v n := by
    intro n hn
    rw [Proceeds, exits_prune hg n (leads_of_prune hg hn), runBody_prune]
    exact hproc n (leads_of_prune hg hn)
  have hends : ∀ s r, g.Ends v g.charges g.entry 0 s r ↔
      g.prune.Ends v g.prune.charges g.prune.entry 0 s r := fun s r => ends_prune hg .refl
  rcases withFreshEntry_eq g.prune with ⟨heq, _⟩ | heq <;> rw [prepared, heq] <;>
    rw [heq] at htrim
  · have hp := htrim.prepared_split hprune
    exact ⟨hp.proceeds, fun s r => (hends s r).trans (hp.ends s r)⟩
  · have hpr := inRange_prune hg
    have hp := htrim.prepared_split (v := v) fun n hn => by
      rcases leads_prepend.1 hn with rfl | hn'
      · rw [Proceeds, exits_prepend_entry]
        exact .inl (.last rfl)
      · have hlt := Leads.lt hpr hpr.entry hn'
        rw [Proceeds, exits_prepend hlt, runBody_prepend hlt]
        exact hprune n hn'
    refine ⟨hp.proceeds, fun s r => ?_⟩
    rw [hends, ends_prepend_entry hpr]
    exact hp.ends s r

end Dynarec.Flow.Graph
