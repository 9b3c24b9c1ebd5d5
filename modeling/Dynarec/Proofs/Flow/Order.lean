import Mathlib.Data.List.Nodup
import Dynarec.Flow.Dominance
import Dynarec.Proofs.Flow.Reach
import Dynarec.Proofs.Flow.Traversal

/-!
# Reverse postorder

The order in which `Graph.reversePostorder` lists the reachable blocks. When a block is finished,
the blocks being visited are a path to it from the entry that passes no block twice. So an exit
leads either to a block that is later in the order or to one that is on such a path. The block
before the last one of the path is finished later: every block but the entry is reached from an
earlier one.
-/

namespace Dynarec.Flow.Graph

open Relation (ReflTransGen)

variable {B C : Type} {g : Graph B C}

/-- A path to a block from the entry, listed backwards, that passes no block twice. -/
structure SimplePath (g : Graph B C) (p : List Nat) (x : Nat) : Prop where
  nodup : p.Nodup
  chain : p.IsChain fun a b => g.Edge b a
  head : p.head? = some x
  last : p.getLast? = some g.entry

/-- The reachable blocks in an order in which exits lead to later blocks or to blocks on a path to
their source, and some exit to every block but the entry is from an earlier one. -/
structure Ordered (g : Graph B C) (order : List Nat) : Prop where
  nodup : order.Nodup
  head : order.head? = some g.entry
  mem : ∀ x, x ∈ order ↔ g.Leads g.entry x
  edge : ∀ pre x post, order = pre ++ x :: post → ∀ w, g.Edge x w →
    w ∈ post ∨ ∃ p, g.SimplePath p x ∧ w ∈ p
  source : ∀ pre x post, order = pre ++ x :: post → x ≠ g.entry → ∃ u ∈ pre, g.Edge u x

/-- What holds while blocks are visited, where `gray` are those being visited, the latest first. -/
structure Visiting (g : Graph B C) (gray : List Nat) (s : Postorder) : Prop where
  size : s.visited.size = g.blocks.size
  visited : ∀ x, s.visited.getD x false = true ↔ x ∈ gray ∨ x ∈ s.finished
  apart : ∀ x ∈ gray, x ∉ s.finished
  nodup : s.finished.Nodup
  reach : ∀ x ∈ s.finished, g.Leads g.entry x
  closed : ∀ x ∈ s.finished, ∀ w, g.Edge x w → s.visited.getD w false = true
  edge : ∀ pre x post, s.finished = pre ++ x :: post → ∀ w, g.Edge x w →
    w ∈ post ∨ ∃ p, g.SimplePath p x ∧ w ∈ p
  source : ∀ pre x post, s.finished = pre ++ x :: post → x ≠ g.entry →
    ∃ u, (u ∈ gray ∨ u ∈ pre) ∧ g.Edge u x

/-- A path from the entry leads to its end. -/
lemma SimplePath.leads {p : List Nat} {x : Nat} (h : g.SimplePath p x) : g.Leads g.entry x := by
  obtain ⟨_, hchain, hhead, hlast⟩ := h
  induction p generalizing x with
  | nil => cases hhead
  | cons a p ih =>
    cases hhead
    cases p with
    | nil =>
      cases hlast
      exact .refl
    | cons b p =>
      rw [List.isChain_cons_cons] at hchain
      rw [List.getLast?_cons_cons] at hlast
      exact (ih (by simp_all) hchain.2 rfl hlast).tail hchain.1

/-- A path goes on by an exit to a block that is not on it. -/
lemma SimplePath.cons {p : List Nat} {x w : Nat} (h : g.SimplePath p x) (he : g.Edge x w)
    (hw : w ∉ p) : g.SimplePath (w :: p) w := by
  obtain ⟨hnodup, hchain, hhead, hlast⟩ := h
  cases p with
  | nil => cases hhead
  | cons a p =>
    cases hhead
    exact ⟨List.nodup_cons.2 ⟨hw, hnodup⟩, List.isChain_cons_cons.2 ⟨he, hchain⟩, rfl,
      List.getLast?_cons_cons.trans hlast⟩

/-- A path to another block than the entry has a last exit. -/
lemma SimplePath.exists_source {p : List Nat} {x : Nat} (h : g.SimplePath (x :: p) x)
    (hne : x ≠ g.entry) : ∃ u ∈ p, g.Edge u x := by
  cases p with
  | nil => exact absurd (Option.some_inj.1 h.last) hne
  | cons u p => exact ⟨u, List.mem_cons_self, (List.isChain_cons_cons.1 h.chain).1⟩

/-- A visit of the target of an exit, if it has not been visited. -/
def turn (finish : Nat → Postorder → Postorder) (s : Postorder) (w : Nat) : Postorder :=
  if s.visited.getD w true then s else finish w s

lemma finish_succ (fuel v : Nat) (s : Postorder) : g.finish (fuel + 1) v s =
    let s' := (g.targets v).foldl (turn (g.finish fuel))
      { s with visited := s.visited.setIfInBounds v true }
    { s' with finished := v :: s'.finished } := rfl

/-- What visits do below the blocks that are being visited: they finish more blocks before those
finished earlier, and leave no more blocks to visit. -/
structure Visits (g : Graph B C) (gray : List Nat) (s s' : Postorder) : Prop where
  visiting : Visiting g gray s'
  finished : ∃ new, s'.finished = new ++ s.finished
  count : unmarked s'.visited ≤ unmarked s.visited

section Visits

variable {v : Nat} {gray : List Nat} {s s₁ s₂ : Postorder}

lemma Visits.refl (h : Visiting g gray s) : Visits g gray s s :=
  ⟨h, ⟨[], rfl⟩, le_rfl⟩

lemma Visits.trans (h₁ : Visits g gray s s₁) (h₂ : Visits g gray s₁ s₂) : Visits g gray s s₂ := by
  obtain ⟨new₁, hnew₁⟩ := h₁.finished
  obtain ⟨new₂, hnew₂⟩ := h₂.finished
  exact ⟨h₂.visiting, ⟨new₂ ++ new₁, by rw [hnew₂, hnew₁, List.append_assoc]⟩,
    h₂.count.trans h₁.count⟩

/-- A block that has been visited stays so. -/
lemma Visits.visited (hv : Visits g gray s s₁) (h : Visiting g gray s) {x : Nat}
    (hx : s.visited.getD x false = true) : s₁.visited.getD x false = true := by
  obtain ⟨new, hnew⟩ := hv.finished
  rw [hv.visiting.visited, hnew]
  exact ((h.visited x).1 hx).imp_right (List.mem_append_right _)

/-- A block starts to be visited. -/
lemma Visiting.enter (h : Visiting g gray s) (hv : s.visited.getD v true = false) :
    Visiting g (v :: gray) { s with visited := s.visited.setIfInBounds v true } := by
  obtain ⟨hvlt, hvf⟩ := getD_true_eq_false.1 hv
  have hvisited : ∀ x, (s.visited.setIfInBounds v true).getD x false = true ↔
      x = v ∨ s.visited.getD x false = true := by
    intro x
    rw [getD_setIfInBounds]
    by_cases hxv : v = x
    · subst hxv
      simp [hvlt]
    · simp [hxv, Ne.symm hxv]
  have hvs : v ∉ s.finished := fun hm => by
    rw [(h.visited v).2 (.inr hm)] at hvf
    cases hvf
  refine ⟨by simp [h.size], fun x => ?_, fun x hx => ?_, h.nodup, h.reach,
    fun x hx w he => (hvisited w).2 (.inr (h.closed x hx w he)), h.edge,
    fun pre x post heq hne => ?_⟩
  · rw [hvisited, h.visited, List.mem_cons, or_assoc]
  · rcases List.mem_cons.1 hx with rfl | hx
    · exact hvs
    · exact h.apart x hx
  · obtain ⟨u, hu, he⟩ := h.source pre x post heq hne
    exact ⟨u, hu.imp_left (List.mem_cons_of_mem _), he⟩

/-- A block is finished when the targets of its exits have been visited. -/
lemma Visiting.leave (h : Visiting g (v :: gray) s) (hpath : g.SimplePath (v :: gray) v)
    (hdone : ∀ w, g.Edge v w → s.visited.getD w false = true) :
    Visiting g gray { s with finished := v :: s.finished } := by
  exact
    { size := h.size
      visited := fun x => by
        rw [h.visited, List.mem_cons, List.mem_cons]
        tauto
      apart := fun x hx => by
        rw [List.mem_cons, not_or]
        refine ⟨?_, h.apart x (List.mem_cons_of_mem _ hx)⟩
        rintro rfl
        exact (List.nodup_cons.1 hpath.nodup).1 hx
      nodup := List.nodup_cons.2 ⟨h.apart v List.mem_cons_self, h.nodup⟩
      reach := fun x hx => by
        rcases List.mem_cons.1 hx with rfl | hx
        · exact hpath.leads
        · exact h.reach x hx
      closed := fun x hx w he => by
        rcases List.mem_cons.1 hx with rfl | hx
        · exact hdone w he
        · exact h.closed x hx w he
      edge := fun pre x post heq w he => by
        cases pre with
        | nil =>
          obtain ⟨rfl, rfl⟩ := List.cons.inj heq
          rcases (h.visited w).1 (hdone w he) with hw | hw
          · exact .inr ⟨_, hpath, hw⟩
          · exact .inl hw
        | cons y pre => exact h.edge pre x post (List.cons.inj heq).2 w he
      source := fun pre x post heq hne => by
        cases pre with
        | nil =>
          obtain ⟨rfl, rfl⟩ := List.cons.inj heq
          obtain ⟨u, hu, he⟩ := hpath.exists_source hne
          exact ⟨u, .inl hu, he⟩
        | cons y pre =>
          obtain ⟨rfl, hrest⟩ := List.cons.inj heq
          obtain ⟨u, hu, he⟩ := h.source pre x post hrest hne
          refine ⟨u, ?_, he⟩
          -- the block that is finished now is no longer visited, but comes before
          rcases hu with hu | hu
          · rcases List.mem_cons.1 hu with rfl | hu
            · exact .inr List.mem_cons_self
            · exact .inl hu
          · exact .inr (List.mem_cons_of_mem _ hu) }

end Visits

/-- The targets of exits are visited one after another, given what a visit does to one that has not
been visited. -/
lemma visits_turns (finish : Nat → Postorder → Postorder) (ws : List Nat) {gray : List Nat} {n : Nat}
    (hfinish : ∀ w ∈ ws, ∀ s, Visiting g gray s → unmarked s.visited ≤ n →
      s.visited.getD w true = false →
        Visits g gray s (finish w s) ∧ (finish w s).visited.getD w false = true)
    (hws : ∀ w ∈ ws, w < g.blocks.size) {s : Postorder} (h : Visiting g gray s)
    (hn : unmarked s.visited ≤ n) :
    Visits g gray s (ws.foldl (turn finish) s) ∧
      ∀ w ∈ ws, (ws.foldl (turn finish) s).visited.getD w false = true := by
  induction ws generalizing s with
  | nil => exact ⟨.refl h, by simp⟩
  | cons w ws ih =>
    have hstep : Visits g gray s (turn finish s w) ∧
        (turn finish s w).visited.getD w false = true := by
      unfold turn
      split
      · next hw =>
        refine ⟨.refl h, ?_⟩
        by_contra hn
        rw [getD_true_eq_false.2 ⟨h.size ▸ hws w List.mem_cons_self, by simpa using hn⟩] at hw
        cases hw
      · next hw => exact hfinish w List.mem_cons_self s h hn (by simpa using hw)
    obtain ⟨h₁, hw⟩ := hstep
    obtain ⟨h₂, hdone⟩ := ih (fun x hx => hfinish x (List.mem_cons_of_mem _ hx))
      (fun x hx => hws x (List.mem_cons_of_mem _ hx)) h₁.visiting (h₁.count.trans hn)
    refine ⟨h₁.trans h₂, fun x hx => ?_⟩
    rcases List.mem_cons.1 hx with rfl | hx
    · exact h₂.visited h₁.visiting hw
    · exact hdone x hx

/-- What visiting a block does. The fuel is enough when it bounds the number of blocks that have not
been visited. -/
lemma visits_finish (hg : g.InRange) {fuel v : Nat} {gray : List Nat} {s : Postorder}
    (h : Visiting g gray s) (hv : s.visited.getD v true = false)
    (hpath : g.SimplePath (v :: gray) v) (hfuel : unmarked s.visited ≤ fuel) :
    Visits g gray s (g.finish fuel v s) ∧ (g.finish fuel v s).finished.head? = some v := by
  induction fuel generalizing v gray s with
  | zero =>
    have := unmarked_set hv
    omega
  | succ fuel ih =>
    have hcount := unmarked_set hv
    obtain ⟨hturns, hdone⟩ := visits_turns (g.finish fuel) (g.targets v) (n := fuel)
      (fun w he s' h' hs' hw => by
        have hwn : w ∉ v :: gray := fun hm => by
          have hwf := (getD_true_eq_false.1 hw).2
          rw [(h'.visited w).2 (.inl hm)] at hwf
          cases hwf
        obtain ⟨hvisits, hhead⟩ := ih h' hw (hpath.cons he hwn) hs'
        exact ⟨hvisits, (hvisits.visiting.visited w).2 (.inr (List.mem_of_head? hhead))⟩)
      (fun w he => hg.target he) (h.enter hv)
      (by change unmarked (s.visited.setIfInBounds v true) ≤ fuel; omega)
    obtain ⟨new, hnew⟩ := hturns.finished
    rw [finish_succ]
    refine ⟨⟨hturns.visiting.leave hpath hdone, ⟨v :: new, congrArg (v :: ·) hnew⟩, ?_⟩, rfl⟩
    exact hturns.count.trans
      (show unmarked (s.visited.setIfInBounds v true) ≤ unmarked s.visited by omega)

/-- The reverse postorder of the search. -/
theorem ordered_reversePostorder (hg : g.InRange) : g.Ordered g.reversePostorder := by
  have hz : ∀ x, (Array.replicate g.blocks.size false).getD x false = false := by
    intro x
    simp only [Array.getD_eq_getD_getElem?, Array.getElem?_replicate]
    split <;> rfl
  have hstart : Visiting g [] ⟨Array.replicate g.blocks.size false, []⟩ :=
    ⟨by simp, fun x => by rw [hz]; simp, by simp, .nil, by simp, by simp, by simp, by simp⟩
  obtain ⟨⟨h, _, _⟩, hhead⟩ := visits_finish hg (v := g.entry) hstart
    (getD_true_eq_false.2 ⟨by simpa using hg.entry, hz _⟩)
    ⟨List.nodup_singleton _, .singleton _, rfl, rfl⟩
    (show unmarked _ ≤ g.blocks.size by simp [unmarked])
  change Visiting g [] ⟨_, g.reversePostorder⟩ at h
  change g.reversePostorder.head? = some g.entry at hhead
  refine ⟨h.nodup, hhead, fun x => ⟨h.reach x, fun hx => ?_⟩, h.edge,
    fun pre x post heq hne => ?_⟩
  · induction hx with
    | refl => exact List.mem_of_head? hhead
    | tail _ he ih => exact ((h.visited _).1 (h.closed _ ih _ he)).resolve_left (by simp)
  · obtain ⟨u, hu, he⟩ := h.source pre x post heq hne
    exact ⟨u, hu.resolve_left (by simp), he⟩

/-! ### The search as a loop -/

/-- The search that lists the blocks when they are finished. -/
def ordering (g : Graph B C) : Traversal Postorder where
  targets := g.targets
  fresh s v := !s.visited.getD v true
  enter v s := { s with visited := s.visited.setIfInBounds v true }
  pass _ _ s := s
  leave v s := { s with finished := v :: s.finished }
  back _ _ s := s

lemma finish_eq (fuel : Nat) : g.finish fuel = g.ordering.visit fuel := by
  induction fuel with
  | zero => rfl
  | succ fuel ih =>
    have hlook : ∀ v, turn (g.finish fuel) = g.ordering.look (g.ordering.visit fuel) v := by
      intro v
      funext s w
      have hfresh : g.ordering.fresh s w = !s.visited.getD w true := rfl
      rw [ih, turn, Traversal.look, hfresh]
      cases s.visited.getD w true <;> rfl
    funext v s
    rw [finish_succ, hlook v]
    rfl

/-- Only entering a block discovers one. -/
lemma discovers_ordering (hg : g.InRange) :
    g.ordering.Discovers (fun _ => True) (· < g.blocks.size) (unmarked ·.visited) where
  target _ _ hw := hg.target hw
  enter s v _ _ hf := by
    have hcount := unmarked_set (Bool.not_eq_true' _ ▸ hf)
    exact ⟨trivial, show unmarked (s.visited.setIfInBounds v true) < _ by omega⟩
  pass _ _ _ hs := ⟨hs, rfl⟩
  leave _ _ hs := ⟨hs, rfl⟩
  back _ _ _ hs := ⟨hs, rfl⟩

/-- The loop over the blocks that the entry leads to, of which none is visited. -/
def orderingLoop (g : Graph B C) : Traversal.Loop Postorder :=
  ⟨⟨Array.replicate g.blocks.size false, []⟩, [], [g.entry]⟩

/-- The loop ends with the reverse postorder. -/
theorem reaches_reversePostorder (hg : g.InRange) :
    ∃ s, g.ordering.Reaches g.orderingLoop ⟨s, [], []⟩ ∧ s.finished = g.reversePostorder := by
  have hcount : unmarked (Array.replicate g.blocks.size false) ≤ g.blocks.size := by simp [unmarked]
  have hfresh : g.ordering.fresh ⟨Array.replicate g.blocks.size false, []⟩ g.entry = true := by
    have hf : (Array.replicate g.blocks.size false).getD g.entry true = false := by
      simp [Array.getD_eq_getD_getElem?, hg.entry]
    exact congrArg not hf
  have hroots : ∀ v ∈ [g.entry], v < g.blocks.size := List.forall_mem_singleton.2 hg.entry
  refine ⟨_, (discovers_ordering hg).reaches_seek hroots trivial hcount, ?_⟩
  rw [List.foldl_cons, List.foldl_nil, Traversal.seek, if_pos hfresh, reversePostorder, finish_eq]

end Dynarec.Flow.Graph
