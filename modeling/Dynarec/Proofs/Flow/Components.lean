import Dynarec.Flow.Components
import Dynarec.Proofs.Flow.Reach

/-!
# Components are strongly connected

The depth-first search of `Graph.components` finds the strongly connected components of a region:
they part the region, two blocks of one component lead to each other inside the region, and the
exits of a component that stay in the region lead to it or to earlier ones.

`Search.Open` is what holds of the search at any time, where `gray` lists the blocks that are being
visited. A block on the stack leads to a gray one of no higher number, and to all blocks of higher
numbers on the stack. `Search.Scanning` adds what is known of the block whose exits are being looked
at, above all that its low number bounds the numbers that blocks above it on the stack lead to.
-/

namespace Dynarec.Flow

open Relation (ReflTransGen)

variable {B C : Type}

/-- An exit between two blocks of a region. -/
def Graph.EdgeIn (g : Graph B C) (region : Array Bool) (u w : Nat) : Prop :=
  region.getD u false = true ∧ region.getD w false = true ∧ g.Edge u w

/-- Exits lead from one block to another inside a region. -/
abbrev Graph.LeadsIn (g : Graph B C) (region : Array Bool) : Nat → Nat → Prop :=
  ReflTransGen (g.EdgeIn region)

namespace Search

/-- The number of a block, if it has been discovered. -/
def num (s : Search) (v : Nat) : Option Nat := s.number.getD v none

/-- A block has been discovered. -/
def Seen (s : Search) (v : Nat) : Prop := s.num v ≠ none

/-- The number of a discovered block. -/
def ord (s : Search) (v : Nat) : Nat := (s.num v).getD 0

/-- The lowest number that a block is known to reach. -/
def lowest (s : Search) (v : Nat) : Nat := s.low.getD v 0

/-- Number of blocks that have not been discovered. -/
def unseen (s : Search) : Nat := s.number.count none

/-- Components that are closed: exits lead from each to itself or to earlier ones, and its blocks
lead to each other. -/
structure Closed (g : Graph B C) (region : Array Bool) (components : List (List Nat)) : Prop where
  nodup : ∀ c ∈ components, c.Nodup
  disjoint : components.Pairwise List.Disjoint
  strong : ∀ c ∈ components, ∀ x ∈ c, ∀ y ∈ c, g.LeadsIn region x y
  back : ∀ pre c post, components = pre ++ c :: post → ∀ u ∈ c, ∀ w, g.EdgeIn region u w →
    w ∈ c ∨ ∃ c' ∈ pre, w ∈ c'

/-- What holds of a search at any time. -/
structure Open (g : Graph B C) (region : Array Bool) (s : Search) (gray : List Nat) : Prop where
  number_size : s.number.size = g.blocks.size
  low_size : s.low.size = g.blocks.size
  onStack_size : s.onStack.size = g.blocks.size
  inRegion : ∀ v, s.Seen v → region.getD v false = true
  ord_lt : ∀ v, s.Seen v → s.ord v < s.next
  sorted : s.stack.Pairwise fun a b => s.ord b < s.ord a
  seen_iff : ∀ v, s.Seen v ↔ v ∈ s.stack ∨ ∃ c ∈ s.components.toList, v ∈ c
  apart : ∀ c ∈ s.components.toList, ∀ v ∈ c, v ∉ s.stack
  onStack : ∀ v, s.onStack.getD v false = true ↔ v ∈ s.stack
  grayStack : ∀ v ∈ gray, v ∈ s.stack
  black : ∀ u w, s.Seen u → u ∉ gray → g.EdgeIn region u w → s.Seen w
  toGray : ∀ v ∈ s.stack, ∃ y ∈ gray, s.ord y ≤ s.ord v ∧ g.LeadsIn region v y
  fromStack : ∀ x ∈ s.stack, ∀ y ∈ s.stack, s.ord x ≤ s.ord y → g.LeadsIn region x y
  closed : Closed g region s.components.toList

/-- A later state of a search, in which new blocks have higher numbers. -/
structure Extends (s s' : Search) : Prop where
  number : ∀ u, s.Seen u → s'.num u = s.num u
  next : s.next ≤ s'.next
  later : ∀ u, s'.Seen u → ¬ s.Seen u → s.next ≤ s'.ord u
  unseen : s'.unseen ≤ s.unseen

namespace Extends

variable {s s' s'' : Search}

lemma seen (h : Extends s s') {u : Nat} (hu : s.Seen u) : s'.Seen u := by
  rw [Seen, h.number u hu]
  exact hu

lemma ord (h : Extends s s') {u : Nat} (hu : s.Seen u) : s'.ord u = s.ord u := by
  rw [Search.ord, h.number u hu, Search.ord]

lemma refl (s : Search) : Extends s s := ⟨fun _ _ => rfl, le_rfl, fun _ hu hn => absurd hu hn, le_rfl⟩

lemma trans (h : Extends s s') (h' : Extends s' s'') : Extends s s'' where
  number u hu := (h'.number u (h.seen hu)).trans (h.number u hu)
  next := h.next.trans h'.next
  later u hu hn := by
    by_cases hs : s'.Seen u
    · rw [h'.ord hs]
      exact h.later u hs hn
    · exact h.next.trans (h'.later u hu hs)
  unseen := h'.unseen.trans h.unseen

end Extends

/-- A block is seen if it has a number. -/
lemma seen_of_num {s : Search} {v n : Nat} (h : s.num v = some n) : s.Seen v ∧ s.ord v = n := by
  simp [Seen, ord, h]

section

variable {g : Graph B C} {region : Array Bool} {s s' : Search} {gray : List Nat} {v w : Nat}

/-- Blocks on the stack are told apart by their numbers. -/
lemma Open.eq_of_ord (h : Open g region s gray) {x y : Nat} (hx : x ∈ s.stack) (hy : y ∈ s.stack)
    (e : s.ord x = s.ord y) : x = y := by
  by_contra hne
  obtain ⟨i, hi, rfl⟩ := List.getElem_of_mem hx
  obtain ⟨j, hj, rfl⟩ := List.getElem_of_mem hy
  have hp := List.pairwise_iff_getElem.1 h.sorted
  rcases Nat.lt_trichotomy i j with hij | rfl | hij
  · exact absurd e (hp i j hi hj hij).ne'
  · exact hne rfl
  · exact absurd e (hp j i hj hi hij).ne

/-! ### Discovering a block -/

lemma num_enter (s : Search) (v u : Nat) (hv : v < s.number.size) :
    (s.enter v).num u = if v = u then some s.next else s.num u := by
  simp only [num, enter, Graph.getD_setIfInBounds]
  by_cases huv : v = u
  · subst huv
    simp only [hv, and_self, if_true]
  · simp only [huv, false_and, if_false]

/-- Discovering a block takes one from those that have not been discovered. -/
lemma unseen_enter (hv : v < s.number.size) (hn : ¬ s.Seen v) :
    (s.enter v).unseen + 1 = s.unseen := by
  have hnone : s.number[v] = none := by
    simpa [Seen, num, Array.getD_eq_getD_getElem?, hv] using hn
  have hpos : 0 < s.number.count none := Array.count_pos_iff.2 (hnone ▸ Array.getElem_mem hv)
  simp only [Search.unseen, enter, Array.setIfInBounds_def, dif_pos hv, Array.count_set hv]
  simp only [hnone, beq_self_eq_true, if_true, Option.some_beq_none, Bool.false_eq_true, if_false]
  omega

lemma extends_enter (hv : v < s.number.size) (hn : ¬ s.Seen v) : Extends s (s.enter v) where
  number u hu := by
    rw [num_enter s v u hv, if_neg (by rintro rfl; exact hn hu)]
  next := Nat.le_succ _
  later u hu hs := by
    by_cases huv : v = u
    · rw [ord, num_enter s v u hv, if_pos huv]
      rfl
    · exact absurd (by simpa [Seen, num_enter s v u hv, huv] using hu) hs
  unseen := by
    have := unseen_enter hv hn
    omega

lemma open_enter (h : Open g region s gray) (hv : v < g.blocks.size) (hn : ¬ s.Seen v)
    (hr : region.getD v false = true) (hreach : ∀ y ∈ gray, g.LeadsIn region y v) :
    Open g region (s.enter v) (v :: gray) := by
  have hvn : v < s.number.size := h.number_size ▸ hv
  have hext := extends_enter hvn hn
  have hord : (s.enter v).ord v = s.next := by simp [ord, num_enter s v v hvn]
  have hseen : ∀ u, (s.enter v).Seen u ↔ v = u ∨ s.Seen u := by
    intro u
    rw [Seen, num_enter s v u hvn]
    split <;> simp_all [Seen]
  have hstack : ∀ u ∈ s.stack, s.Seen u := fun u hu => (h.seen_iff u).2 (.inl hu)
  have hvs : v ∉ s.stack := fun hvs => hn (hstack v hvs)
  exact
    { number_size := by simp [enter, h.number_size]
      low_size := by simp [enter, h.low_size]
      onStack_size := by simp [enter, h.onStack_size]
      inRegion := fun u hu => by
        rcases (hseen u).1 hu with rfl | hu
        · exact hr
        · exact h.inRegion u hu
      ord_lt := fun u hu => by
        rcases (hseen u).1 hu with rfl | hu
        · rw [hord]
          exact Nat.lt_succ_self _
        · rw [hext.ord hu]
          exact (h.ord_lt u hu).trans (Nat.lt_succ_self _)
      sorted := by
        refine List.Pairwise.cons (fun u hu => ?_) ?_
        · rw [hord, hext.ord (hstack u hu)]
          exact h.ord_lt u (hstack u hu)
        · refine h.sorted.imp_of_mem fun {a b} ha hb hab => ?_
          rw [hext.ord (hstack a ha), hext.ord (hstack b hb)]
          exact hab
      seen_iff := fun u => by
        rw [hseen, h.seen_iff]
        simp only [enter, List.mem_cons]
        grind
      apart := fun c hc u hu => by
        simp only [enter, List.mem_cons, not_or]
        refine ⟨?_, h.apart c hc u hu⟩
        rintro rfl
        exact hn ((h.seen_iff u).2 (.inr ⟨c, hc, hu⟩))
      onStack := fun u => by
        simp only [enter, Graph.getD_setIfInBounds, List.mem_cons, h.onStack_size]
        have := h.onStack u
        grind
      grayStack := fun u hu => by
        rcases List.mem_cons.1 hu with rfl | hu
        · exact List.mem_cons_self
        · exact List.mem_cons_of_mem _ (h.grayStack u hu)
      black := fun u w hu hg he => by
        rcases (hseen u).1 hu with rfl | hu
        · exact absurd List.mem_cons_self hg
        · exact hext.seen (h.black u w hu (fun hu' => hg (List.mem_cons_of_mem _ hu')) he)
      toGray := fun u hu => by
        rcases List.mem_cons.1 hu with rfl | hu
        · exact ⟨u, List.mem_cons_self, le_rfl, .refl⟩
        · obtain ⟨y, hy, hle, hl⟩ := h.toGray u hu
          refine ⟨y, List.mem_cons_of_mem _ hy, ?_, hl⟩
          rwa [hext.ord (hstack y (h.grayStack y hy)), hext.ord (hstack u hu)]
      fromStack := fun x hx y hy hxy => by
        rcases List.mem_cons.1 hx with rfl | hxs <;> rcases List.mem_cons.1 hy with rfl | hys
        · exact .refl
        · rw [hord, hext.ord (hstack y hys)] at hxy
          exact absurd (h.ord_lt y (hstack y hys)) (by omega)
        · obtain ⟨z, hz, -, hl⟩ := h.toGray x hxs
          exact hl.trans (hreach z hz)
        · rw [hext.ord (hstack x hxs), hext.ord (hstack y hys)] at hxy
          exact h.fromStack x hxs y hys hxy
      closed := h.closed }

/-! ### Lowering -/

lemma lowest_lower (s : Search) (v n u : Nat) (hv : v < s.low.size) :
    (s.lower v n).lowest u = if v = u then min n (s.lowest v) else s.lowest u := by
  simp only [lowest, lower, Array.getD_eq_getD_getElem?, Array.getElem?_modify]
  by_cases huv : v = u
  · subst huv
    simp [hv]
  · simp [huv]

/-- Lowering changes only what is known to be reachable. -/
lemma open_lower (h : Open g region s gray) (n : Nat) : Open g region (s.lower v n) gray :=
  ⟨h.number_size, by simp [lower, h.low_size], h.onStack_size, h.inRegion, h.ord_lt, h.sorted,
    h.seen_iff, h.apart, h.onStack, h.grayStack, h.black, h.toGray, h.fromStack, h.closed⟩

lemma extends_lower (s : Search) (v n : Nat) : Extends s (s.lower v n) :=
  ⟨fun _ _ => rfl, le_rfl, fun _ hu hn => absurd hu hn, le_rfl⟩

/-! ### Visiting a block -/

/-- What visiting a block does. -/
structure Visited (g : Graph B C) (region : Array Bool) (s s' : Search) (gray : List Nat)
    (v : Nat) : Prop where
  isOpen : Open g region s' gray
  extends_ : Extends s s'
  seen : s'.Seen v
  ord : s'.ord v = s.next
  low : ∀ u, s.Seen u → s'.lowest u = s.lowest u
  stack : ∃ new, s'.stack = new ++ s.stack ∧ ∀ u ∈ new, ¬ s.Seen u
  kept : v ∈ s'.stack → s'.lowest v ≤ s'.ord v ∧
    (∃ y ∈ s'.stack, s'.ord y = s'.lowest v ∧ g.LeadsIn region v y) ∧
    ∀ x ∈ s'.stack, s'.ord v ≤ s'.ord x → ∀ w ∈ s'.stack, g.EdgeIn region x w →
      s'.lowest v ≤ s'.ord w
  left : v ∉ s'.stack → s'.stack = s.stack ∧ s'.ord v ≤ s'.lowest v

/-- What holds while the exits of a block are looked at that was discovered in state `s₀`, where
`done` are the targets that have been looked at. -/
structure Scanning (g : Graph B C) (region : Array Bool) (s₀ s : Search) (gray : List Nat)
    (v : Nat) (done : List Nat) : Prop where
  isOpen : Open g region s (v :: gray)
  extends_ : Extends s₀ s
  unseen : s.unseen < s₀.unseen
  ord : s.ord v = s₀.next
  low : ∀ u, s₀.Seen u → s.lowest u = s₀.lowest u
  stack : ∃ new, s.stack = new ++ v :: s₀.stack
  le : s.lowest v ≤ s.ord v
  witness : ∃ y ∈ s.stack, s.ord y = s.lowest v ∧ g.LeadsIn region v y
  done : ∀ w ∈ done, g.EdgeIn region v w → s.Seen w ∧ (w ∈ s.stack → s.lowest v ≤ s.ord w)
  above : ∀ x ∈ s.stack, s.ord v < s.ord x → ∀ w ∈ s.stack, g.EdgeIn region x w →
    s.lowest v ≤ s.ord w

lemma scanning_enter (h : Open g region s gray) (hv : v < g.blocks.size) (hn : ¬ s.Seen v)
    (hr : region.getD v false = true) (hreach : ∀ y ∈ gray, g.LeadsIn region y v) :
    Scanning g region s (s.enter v) gray v [] := by
  have hvn : v < s.number.size := h.number_size ▸ hv
  have hord : (s.enter v).ord v = s.next := by rw [Search.ord, num_enter s v v hvn, if_pos rfl]; rfl
  have hlow : ∀ u, (s.enter v).lowest u = if v = u then s.next else s.lowest u := by
    intro u
    simp only [lowest, enter, Graph.getD_setIfInBounds]
    by_cases huv : v = u
    · subst huv
      simp only [h.low_size, hv, and_self, if_true]
    · simp only [huv, false_and, if_false]
  have hne : ∀ u, s.Seen u → v ≠ u := by
    rintro u hu rfl
    exact hn hu
  refine ⟨open_enter h hv hn hr hreach, extends_enter hvn hn, by
    rw [← unseen_enter hvn hn]
    exact Nat.lt_succ_self _, hord,
    fun u hu => by rw [hlow, if_neg (hne u hu)], ⟨[], rfl⟩, ?_, ?_, by simp, fun x hx hlt => ?_⟩
  · rw [hlow, if_pos rfl, hord]
  · exact ⟨v, List.mem_cons_self, by rw [hlow, if_pos rfl, hord], .refl⟩
  · rcases List.mem_cons.1 hx with rfl | hx
    · exact absurd hlt (lt_irrefl _)
    · have hs : s.Seen x := (h.seen_iff x).2 (.inl hx)
      rw [hord, (extends_enter hvn hn).ord hs] at hlt
      exact absurd (h.ord_lt x hs) (by omega)

/-- Look at the target of an exit of block `v`, where `visit` visits a block. -/
def look (region : Array Bool) (visit : Nat → Search → Search) (v : Nat) (s : Search) (w : Nat) :
    Search :=
  if !region.getD w false then s
  else
    match s.num w with
    | none => (visit w s).lower v ((visit w s).lowest w)
    | some n => if s.onStack.getD w false then s.lower v n else s

variable {s₀ : Search} {done : List Nat}

/-- What has been looked at may be said differently. -/
lemma Scanning.of_done (h : Scanning g region s₀ s gray v done) {done' : List Nat}
    (hd : ∀ w ∈ done', g.EdgeIn region v w → s.Seen w ∧ (w ∈ s.stack → s.lowest v ≤ s.ord w)) :
    Scanning g region s₀ s gray v done' :=
  ⟨h.isOpen, h.extends_, h.unseen, h.ord, h.low, h.stack, h.le, h.witness, hd, h.above⟩

/-- One more target has been looked at. -/
lemma Scanning.cons (h : Scanning g region s₀ s gray v done)
    (hw : g.EdgeIn region v w → s.Seen w ∧ (w ∈ s.stack → s.lowest v ≤ s.ord w)) :
    Scanning g region s₀ s gray v (w :: done) := by
  refine h.of_done fun u hu he => ?_
  rcases List.mem_cons.1 hu with rfl | hu
  · exact hw he
  · exact h.done u hu he

/-- A block that is being visited is on the stack. -/
lemma Scanning.mem (h : Scanning g region s₀ s gray v done) : v ∈ s.stack :=
  h.isOpen.grayStack v List.mem_cons_self

lemma Open.seen_of_mem (h : Open g region s gray) (hv : v ∈ s.stack) : s.Seen v :=
  (h.seen_iff v).2 (.inl hv)

/-- Blocks on the stack are blocks of the graph. -/
lemma Open.lt (h : Open g region s gray) (hv : s.Seen v) : v < g.blocks.size := by
  by_contra hlt
  apply hv
  rw [← h.number_size] at hlt
  simp [num, Array.getD_eq_getD_getElem?, Array.getElem?_eq_none (Nat.le_of_not_lt hlt)]

/-- A block on the stack that the visited block leads to lowers what it is known to reach. -/
lemma Scanning.lower (h : Scanning g region s₀ s gray v done) (hv : ¬ s₀.Seen v) {y : Nat}
    (hy : y ∈ s.stack) (hl : g.LeadsIn region v y) :
    Scanning g region s₀ (s.lower v (s.ord y)) gray v done := by
  have hlow := lowest_lower s v (s.ord y)
  have hsize : v < s.low.size := h.isOpen.low_size ▸ h.isOpen.lt (h.isOpen.seen_of_mem h.mem)
  have hself : (s.lower v (s.ord y)).lowest v = min (s.ord y) (s.lowest v) := by
    rw [hlow v hsize, if_pos rfl]
  exact
    { isOpen := open_lower h.isOpen _
      extends_ := h.extends_.trans (extends_lower ..)
      unseen := h.unseen
      ord := h.ord
      low := fun u hu => by
        rw [hlow u hsize, if_neg (by rintro rfl; exact hv hu)]
        exact h.low u hu
      stack := h.stack
      le := by
        rw [hself]
        exact (min_le_right _ _).trans h.le
      witness := by
        rw [hself]
        rcases Nat.le_total (s.ord y) (s.lowest v) with hle | hle
        · rw [min_eq_left hle]
          exact ⟨y, hy, rfl, hl⟩
        · rw [min_eq_right hle]
          exact h.witness
      done := fun w hw he => by
        obtain ⟨hseen, hle⟩ := h.done w hw he
        refine ⟨hseen, fun hws => ?_⟩
        rw [hself]
        exact (min_le_right _ _).trans (hle hws)
      above := fun x hx hlt w hw he => by
        rw [hself]
        exact (min_le_right _ _).trans (h.above x hx hlt w hw he) }

section
variable (h : Scanning g region s₀ s gray v done) (hvis : Visited g region s s' (v :: gray) w)
include h hvis

lemma Scanning.lowest_visit (n : Nat) (u : Nat) :
    (s'.lower v n).lowest u = if v = u then min n (s'.lowest v) else s'.lowest u :=
  lowest_lower _ _ _ _ (hvis.isOpen.low_size ▸ h.isOpen.lt (h.isOpen.seen_of_mem h.mem))

/-- What the block is known to reach after a visit, and what it was before. -/
lemma Scanning.lowest_visit_self (n : Nat) :
    (s'.lower v n).lowest v = min n (s.lowest v) := by
  rw [h.lowest_visit hvis, if_pos rfl, hvis.low v (h.isOpen.seen_of_mem h.mem)]

lemma Scanning.low_visit (hv : ¬ s₀.Seen v) (n : Nat) {u : Nat} (hu : s₀.Seen u) :
    (s'.lower v n).lowest u = s₀.lowest u := by
  rw [h.lowest_visit hvis, if_neg (by rintro rfl; exact hv hu)]
  rw [hvis.low u (h.extends_.seen hu), h.low u hu]

/-- After a visit that closes its component nothing is lowered. -/
lemma Scanning.visit_left (hv : ¬ s₀.Seen v) (hw : w ∉ s'.stack) :
    Scanning g region s₀ (s'.lower v (s'.lowest w)) gray v (w :: done) := by
  obtain ⟨hstack, hle⟩ := hvis.left hw
  have hseen : s.Seen v := h.isOpen.seen_of_mem h.mem
  have hext := hvis.extends_
  have hordv : s'.ord v = s.ord v := hext.ord hseen
  have hsm : ∀ u ∈ s.stack, s'.ord u = s.ord u := fun u hu => hext.ord (h.isOpen.seen_of_mem hu)
  have hself : (s'.lower v (s'.lowest w)).lowest v = s.lowest v := by
    rw [h.lowest_visit_self hvis]
    apply min_eq_right
    have h₁ := h.le
    have h₂ := h.isOpen.ord_lt v hseen
    rw [hvis.ord] at hle
    omega
  exact
    { isOpen := open_lower hvis.isOpen _
      extends_ := (h.extends_.trans hext).trans (extends_lower ..)
      unseen := hext.unseen.trans_lt h.unseen
      ord := hordv.trans h.ord
      low := fun u hu => h.low_visit hvis hv _ hu
      stack := hstack ▸ h.stack
      le := by
        rw [hself]
        exact h.le.trans hordv.ge
      witness := by
        obtain ⟨y, hy, hyo, hyl⟩ := h.witness
        rw [hself]
        exact ⟨y, hstack ▸ hy, (hsm y hy).trans hyo, hyl⟩
      done := fun u hu he => by
        rcases List.mem_cons.1 hu with rfl | hu
        · exact ⟨hvis.seen, fun hus => absurd hus hw⟩
        · obtain ⟨hus, hule⟩ := h.done u hu he
          refine ⟨hext.seen hus, fun hust => ?_⟩
          rw [hself]
          exact (hule (hstack ▸ hust)).trans (hext.ord hus).ge
      above := fun x hx hlt u hu he => by
        change x ∈ s'.stack at hx
        change u ∈ s'.stack at hu
        rw [hstack] at hx hu
        rw [hself]
        change s.lowest v ≤ s'.ord u
        change s'.ord v < s'.ord x at hlt
        rw [hsm u hu]
        rw [hordv, hsm x hx] at hlt
        exact h.above x hx hlt u hu he }

/-- After a visit that leaves its component open the block reaches what the visited one reaches. -/
lemma Scanning.visit_kept (hv : ¬ s₀.Seen v) (he : g.EdgeIn region v w) (hw : w ∈ s'.stack) :
    Scanning g region s₀ (s'.lower v (s'.lowest w)) gray v (w :: done) := by
  obtain ⟨hlew, ⟨y, hy, hyo, hyl⟩, habove⟩ := hvis.kept hw
  obtain ⟨new, hnew, hfresh⟩ := hvis.stack
  have hseen : s.Seen v := h.isOpen.seen_of_mem h.mem
  have hext := hvis.extends_
  have hordv : s'.ord v = s.ord v := hext.ord hseen
  have hself := h.lowest_visit_self hvis (s'.lowest w)
  have hold : ∀ u ∈ s'.stack, s.Seen u → u ∈ s.stack := by
    intro u hu hus
    rw [hnew] at hu
    rcases List.mem_append.1 hu with hu | hu
    · exact absurd hus (hfresh u hu)
    · exact hu
  exact
    { isOpen := open_lower hvis.isOpen _
      extends_ := (h.extends_.trans hext).trans (extends_lower ..)
      unseen := hext.unseen.trans_lt h.unseen
      ord := hordv.trans h.ord
      low := fun u hu => h.low_visit hvis hv _ hu
      stack := by
        obtain ⟨above, habove⟩ := h.stack
        exact ⟨new ++ above, by rw [List.append_assoc, ← habove]; exact hnew⟩
      le := by
        rw [hself]
        exact (min_le_right _ _).trans (h.le.trans hordv.ge)
      witness := by
        rw [hself]
        rcases Nat.le_total (s'.lowest w) (s.lowest v) with hle | hle
        · rw [min_eq_left hle]
          exact ⟨y, hy, hyo, hyl.head he⟩
        · rw [min_eq_right hle]
          obtain ⟨z, hz, hzo, hzl⟩ := h.witness
          exact ⟨z, by change z ∈ s'.stack; rw [hnew]; exact List.mem_append_right _ hz,
            (hext.ord (h.isOpen.seen_of_mem hz)).trans hzo, hzl⟩
      done := fun u hu hue => by
        rw [hself]
        rcases List.mem_cons.1 hu with rfl | hu
        · exact ⟨hvis.seen, fun _ => (min_le_left _ _).trans hlew⟩
        · obtain ⟨hus, hule⟩ := h.done u hu hue
          refine ⟨hext.seen hus, fun hust => (min_le_right _ _).trans ?_⟩
          exact (hule (hold u hust hus)).trans (hext.ord hus).ge
      above := fun x hx hlt u hu hue => by
        rw [hself]
        change x ∈ s'.stack at hx
        change u ∈ s'.stack at hu
        change s'.ord v < s'.ord x at hlt
        change _ ≤ s'.ord u
        by_cases hxs : s.Seen x
        · refine (min_le_right _ _).trans ?_
          by_cases hus : s.Seen u
          · rw [hext.ord hus]
            rw [hordv, hext.ord hxs] at hlt
            exact h.above x (hold x hx hxs) hlt u (hold u hu hus) hue
          · have h₁ := h.le
            have h₂ := h.isOpen.ord_lt v hseen
            have h₃ := hext.later u (hvis.isOpen.seen_of_mem hu) hus
            omega
        · refine (min_le_left _ _).trans (habove x hx ?_ u hu hue)
          rw [hvis.ord]
          exact hext.later x (hvis.isOpen.seen_of_mem hx) hxs }

end

/-- Looking at the target of one more exit. -/
lemma Scanning.look (h : Scanning g region s₀ s gray v done) (hv : ¬ s₀.Seen v)
    {visit : Nat → Search → Search} (he : g.Edge v w) (hr : region.getD v false = true)
    (hvis : ¬ s.Seen w → region.getD w false = true →
      Visited g region s (visit w s) (v :: gray) w) :
    Scanning g region s₀ (look region visit v s w) gray v (w :: done) := by
  unfold Search.look
  split
  · next hw => exact h.cons fun hin => absurd hin.2.1 (by simpa using hw)
  · next hw =>
    have hin : g.EdgeIn region v w := ⟨hr, by simpa using hw, he⟩
    split
    · next hn =>
      have hvis := hvis (fun hs => hs hn) hin.2.1
      by_cases hkept : w ∈ (visit w s).stack
      · exact h.visit_kept hvis hv hin hkept
      · exact h.visit_left hvis hv hkept
    · next n hn =>
      obtain ⟨hs, rfl⟩ := seen_of_num hn
      split
      · next hon =>
        have hws := (h.isOpen.onStack w).1 hon
        have hlow := h.lower hv hws (.single hin)
        refine hlow.cons fun _ => ⟨hs, fun _ => ?_⟩
        have hsize : v < s.low.size :=
          h.isOpen.low_size ▸ h.isOpen.lt (h.isOpen.seen_of_mem h.mem)
        rw [lowest_lower _ _ _ _ hsize, if_pos rfl]
        exact min_le_left _ _
      · next hon => exact h.cons fun _ => ⟨hs, fun hws => absurd ((h.isOpen.onStack w).2 hws) hon⟩

/-- Nothing has been visited above a block but what is on the stack above it. -/
lemma Scanning.stack_eq (h : Scanning g region s₀ s gray v done) :
    ∃ new, s.stack = new ++ v :: s₀.stack ∧ (∀ u ∈ new, s.ord v < s.ord u) ∧
      (∀ u ∈ s₀.stack, s.ord u < s.ord v) ∧ v ∉ new := by
  obtain ⟨new, hnew⟩ := h.stack
  have hs := h.isOpen.sorted
  rw [hnew, List.pairwise_append, List.pairwise_cons] at hs
  have habove : ∀ u ∈ new, s.ord v < s.ord u := fun u hu => hs.2.2 u hu v List.mem_cons_self
  exact ⟨new, hnew, habove, fun u hu => hs.2.1.1 u hu, fun hvn => (habove v hvn).false⟩

/-- Some blocks are taken off the stack. -/
lemma getD_foldl_false (on : Array Bool) (vs : List Nat) (u : Nat) :
    (vs.foldl (fun on w => on.setIfInBounds w false) on).getD u false =
      (on.getD u false && !vs.contains u) := by
  induction vs generalizing on with
  | nil => simp
  | cons w vs ih =>
    rw [List.foldl_cons, ih, Graph.getD_setIfInBounds, List.contains_cons]
    by_cases hwu : w = u
    · subst hwu
      by_cases hw : w < on.size
      · simp [hw]
      · simp [hw, Array.getD_eq_getD_getElem?]
    · have : (u == w) = false := by simpa using fun h => hwu h.symm
      simp [hwu, this]

lemma size_foldl_false (on : Array Bool) (vs : List Nat) :
    (vs.foldl (fun on w => on.setIfInBounds w false) on).size = on.size := by
  induction vs generalizing on with
  | nil => rfl
  | cons w vs ih => rw [List.foldl_cons, ih, Array.size_setIfInBounds]

/-! ### Closing a component -/

section Closing

variable {new : List Nat}

/-- The component of a block that is being visited are the blocks on the stack from its number on. -/
lemma mem_component (hnew : s.stack = new ++ v :: s₀.stack)
    (habove : ∀ u ∈ new, s.ord v < s.ord u) (hbelow : ∀ u ∈ s₀.stack, s.ord u < s.ord v) (u : Nat) :
    u ∈ new ++ [v] ↔ u ∈ s.stack ∧ s.ord v ≤ s.ord u := by
  rw [hnew]
  constructor
  · intro hu
    rcases List.mem_append.1 hu with hu | hu
    · exact ⟨List.mem_append_left _ hu, (habove u hu).le⟩
    · obtain rfl := List.mem_singleton.1 hu
      exact ⟨List.mem_append_right _ List.mem_cons_self, le_rfl⟩
  · rintro ⟨hu, hle⟩
    rcases List.mem_append.1 hu with hu | hu
    · exact List.mem_append_left _ hu
    · rcases List.mem_cons.1 hu with rfl | hu
      · simp
      · exact absurd (hbelow u hu) (by omega)

/-- A block on the stack leads to the one that is being visited, by way of a gray one. -/
lemma Scanning.leads (h : Scanning g region s₀ s gray v done) (hs₀ : Open g region s₀ gray)
    (hbelow : ∀ u ∈ s₀.stack, s.ord u < s.ord v) {u : Nat} (hu : u ∈ s.stack) :
    g.LeadsIn region u v := by
  obtain ⟨y, hy, _, hl⟩ := h.isOpen.toGray u hu
  refine hl.trans ?_
  rcases List.mem_cons.1 hy with rfl | hy
  · exact .refl
  · exact h.isOpen.fromStack y (h.isOpen.grayStack y (List.mem_cons_of_mem _ hy)) v h.mem
      (hbelow y (hs₀.grayStack y hy)).le

/-- Exits of a component that reaches no lower number lead to no block below it on the stack. -/
lemma Scanning.stays (h : Scanning g region s₀ s gray v (g.targets v))
    (hs₀ : Open g region s₀ gray) (hroot : s.ord v = s.lowest v)
    (hbelow : ∀ u ∈ s₀.stack, s.ord u < s.ord v) {u w : Nat} (hu : u ∈ s.stack)
    (hle : s.ord v ≤ s.ord u) (he : g.EdgeIn region u w) :
    s.Seen w ∧ (w ∈ s.stack → s.ord v ≤ s.ord w) := by
  rw [hroot]
  by_cases huv : u = v
  · subst huv
    exact h.done w he.2.2 he
  · have hlt : s.ord v < s.ord u :=
      lt_of_le_of_ne hle fun heq => huv (h.isOpen.eq_of_ord h.mem hu heq).symm
    have hgray : u ∉ v :: gray := by
      intro hg
      rcases List.mem_cons.1 hg with rfl | hg
      · exact huv rfl
      · exact absurd (hbelow u (hs₀.grayStack u hg)) hlt.not_gt
    exact ⟨h.isOpen.black u w (h.isOpen.seen_of_mem hu) hgray he,
      fun hw => h.above u hu hlt w hw he⟩

/-- The component of a block leads only to itself and to earlier components, if the block does not
reach a lower number. -/
lemma Scanning.closed (h : Scanning g region s₀ s gray v (g.targets v))
    (hs₀ : Open g region s₀ gray) (hroot : s.ord v = s.lowest v)
    (hnew : s.stack = new ++ v :: s₀.stack) (habove : ∀ u ∈ new, s.ord v < s.ord u)
    (hbelow : ∀ u ∈ s₀.stack, s.ord u < s.ord v) :
    Closed g region (s.components.toList ++ [new ++ [v]]) := by
  have hmem := mem_component hnew habove hbelow
  exact
    { nodup := fun c hc => by
        rcases List.mem_append.1 hc with hc | hc
        · exact h.isOpen.closed.nodup c hc
        · obtain rfl := List.mem_singleton.1 hc
          have hs := h.isOpen.sorted
          rw [hnew, List.append_cons, List.pairwise_append] at hs
          exact hs.1.imp fun {a b} hab => by rintro rfl; exact hab.false
      disjoint := by
        rw [List.pairwise_append]
        refine ⟨h.isOpen.closed.disjoint, List.pairwise_singleton _ _, fun c hc c' hc' => ?_⟩
        obtain rfl := List.mem_singleton.1 hc'
        exact fun u hu hu' => h.isOpen.apart c hc u hu ((hmem u).1 hu').1
      strong := fun c hc x hx y hy => by
        rcases List.mem_append.1 hc with hc | hc
        · exact h.isOpen.closed.strong c hc x hx y hy
        · obtain rfl := List.mem_singleton.1 hc
          obtain ⟨hy, hle⟩ := (hmem y).1 hy
          exact (h.leads hs₀ hbelow ((hmem x).1 hx).1).trans (h.isOpen.fromStack v h.mem y hy hle)
      back := fun pre c post hcs u hu w he => by
        rcases List.eq_nil_or_concat post with rfl | ⟨post, last, rfl⟩
        · obtain ⟨rfl, hc⟩ := List.append_inj' hcs rfl
          obtain rfl : new ++ [v] = c := by simpa using hc
          obtain ⟨hu, hle⟩ := (hmem u).1 hu
          obtain ⟨hs, hw⟩ := h.stays hs₀ hroot hbelow hu hle he
          rcases (h.isOpen.seen_iff w).1 hs with hws | hws
          · exact .inl ((hmem w).2 ⟨hws, hw hws⟩)
          · exact .inr hws
        · rw [List.concat_eq_append, ← List.cons_append, ← List.append_assoc] at hcs
          obtain ⟨hcs, _⟩ := List.append_inj' hcs rfl
          exact h.isOpen.closed.back pre c post hcs u hu w he }

/-- A discovered block has a number. -/
lemma num_of_seen (h : s.Seen v) : s.num v = some (s.ord v) := by
  rw [Search.ord]
  cases hn : s.num v with
  | none => exact absurd hn h
  | some n => rfl

/-- A block that reaches no lower number than its own closes the component of the blocks on the stack
down to it. -/
lemma close_of_root (hseen : s.Seen v) (hroot : s.ord v = s.lowest v) {below : List Nat}
    (hstack : s.stack = new ++ v :: below) (hvn : v ∉ new) : s.close v = { s with
      stack := below
      onStack := (new ++ [v]).foldl (fun on w => on.setIfInBounds w false) s.onStack
      components := s.components.push (new ++ [v]) } := by
  have hne : ∀ u ∈ new, (u != v) = true := by
    intro u hu
    simpa using fun huv : u = v => hvn (huv ▸ hu)
  have htake : s.stack.takeWhile (· != v) ++ [v] = new ++ [v] := by
    rw [hstack, List.takeWhile_append_of_pos hne]
    simp
  have hdrop : (s.stack.dropWhile (· != v)).drop 1 = below := by
    rw [hstack, List.dropWhile_append_of_pos hne]
    simp
  have hcond : s.number.getD v none = some (s.low.getD v 0) :=
    (num_of_seen hseen).trans (congrArg some hroot)
  simp only [Search.close, if_pos hcond, htake, hdrop]

/-- A block that reaches a lower number than its own leaves its component open. -/
lemma close_of_ne (hseen : s.Seen v) (hroot : s.ord v ≠ s.lowest v) : s.close v = s := by
  have hcond : ¬ s.number.getD v none = some (s.low.getD v 0) := by
    intro hc
    exact hroot (Option.some_inj.1 ((num_of_seen hseen).symm.trans hc))
  simp only [Search.close, if_neg hcond]

/-- The visit of a block has discovered the blocks on the stack down to it. -/
lemma Scanning.fresh (h : Scanning g region s₀ s gray v done) (hs₀ : Open g region s₀ gray)
    (hv : ¬ s₀.Seen v) (habove : ∀ u ∈ new, s.ord v < s.ord u) :
    ∀ u ∈ new ++ [v], ¬ s₀.Seen u := by
  intro u hu hus
  rcases List.mem_append.1 hu with hu | hu
  · have h₁ := habove u hu
    have h₂ := hs₀.ord_lt u hus
    rw [h.extends_.ord hus, h.ord] at h₁
    omega
  · obtain rfl := List.mem_singleton.1 hu
    exact hv hus

/-- When all exits of a block have been looked at, those of the blocks that are no longer visited
lead to discovered blocks. -/
lemma Scanning.black (h : Scanning g region s₀ s gray v (g.targets v)) (u w : Nat) (hu : s.Seen u)
    (hg : u ∉ gray) (he : g.EdgeIn region u w) : s.Seen w := by
  by_cases huv : u = v
  · subst huv
    exact (h.done w he.2.2 he).1
  · exact h.isOpen.black u w hu (by simp [huv, hg]) he

/-- The search goes on below a component that is closed. -/
lemma Scanning.open_of_root (h : Scanning g region s₀ s gray v (g.targets v))
    (hs₀ : Open g region s₀ gray) (hv : ¬ s₀.Seen v) (hroot : s.ord v = s.lowest v) :
    Open g region (s.close v) gray := by
  obtain ⟨new, hnew, habove, hbelow, hvn⟩ := h.stack_eq
  have hfresh := h.fresh hs₀ hv habove
  have hs := h.isOpen
  have hstack : ∀ u, u ∈ s.stack ↔ u ∈ new ++ [v] ∨ u ∈ s₀.stack := by
    intro u
    rw [hnew]
    simp [or_assoc]
  have hcl := h.closed hs₀ hroot hnew habove hbelow
  rw [← Array.toList_push] at hcl
  rw [close_of_root (hs.seen_of_mem h.mem) hroot hnew hvn]
  exact
    { number_size := hs.number_size
      low_size := hs.low_size
      onStack_size := (size_foldl_false _ _).trans hs.onStack_size
      inRegion := hs.inRegion
      ord_lt := hs.ord_lt
      sorted := by
        have := hs.sorted
        rw [hnew, List.pairwise_append, List.pairwise_cons] at this
        exact this.2.1.2
      seen_iff := fun u => by
        refine (hs.seen_iff u).trans ?_
        rw [hstack]
        simp only [Array.toList_push, List.mem_append (t := [new ++ [v]]),
          List.mem_singleton (b := new ++ [v])]
        constructor
        · rintro ((hu | hu) | ⟨c, hc, hu⟩)
          · exact .inr ⟨_, .inr rfl, hu⟩
          · exact .inl hu
          · exact .inr ⟨c, .inl hc, hu⟩
        · rintro (hu | ⟨c, hc | rfl, hu⟩)
          · exact .inl (.inr hu)
          · exact .inr ⟨c, hc, hu⟩
          · exact .inl (.inl hu)
      apart := fun c hc u hu hus => by
        rcases List.mem_append.1 (Array.toList_push ▸ hc) with hc | hc
        · exact hs.apart c hc u hu ((hstack u).2 (.inr hus))
        · obtain rfl := List.mem_singleton.1 hc
          exact hfresh u hu (hs₀.seen_of_mem hus)
      onStack := fun u => by
        change ((new ++ [v]).foldl (fun on w => on.setIfInBounds w false) s.onStack).getD u false =
          true ↔ u ∈ s₀.stack
        rw [getD_foldl_false, Bool.and_eq_true, hs.onStack, hstack, Bool.not_eq_true',
          ← Bool.not_eq_true, List.contains_iff_mem]
        constructor
        · rintro ⟨hu | hu, hn⟩
          · exact absurd hu hn
          · exact hu
        · exact fun hu => ⟨.inr hu, fun hn => hfresh u hn (hs₀.seen_of_mem hu)⟩
      grayStack := hs₀.grayStack
      black := h.black
      toGray := fun u hu => by
        obtain ⟨y, hy, hle, hl⟩ := hs₀.toGray u hu
        refine ⟨y, hy, ?_, hl⟩
        change s.ord y ≤ s.ord u
        rwa [h.extends_.ord (hs₀.seen_of_mem hu),
          h.extends_.ord (hs₀.seen_of_mem (hs₀.grayStack y hy))]
      fromStack := fun x hx y hy hxy =>
        hs.fromStack x ((hstack x).2 (.inr hx)) y ((hstack y).2 (.inr hy)) hxy
      closed := hcl }

/-- A block that reaches a lower number leads to a block that is still visited. -/
lemma Scanning.open_of_lt (h : Scanning g region s₀ s gray v (g.targets v))
    (hlt : s.lowest v < s.ord v) : Open g region s gray := by
  obtain ⟨z, hz, hzo, hzl⟩ := h.witness
  have hs := h.isOpen
  refine ⟨hs.number_size, hs.low_size, hs.onStack_size, hs.inRegion, hs.ord_lt, hs.sorted,
    hs.seen_iff, hs.apart, hs.onStack, fun u hu => hs.grayStack u (List.mem_cons_of_mem _ hu),
    h.black, fun u hu => ?_, hs.fromStack, hs.closed⟩
  obtain ⟨y, hy, hle, hl⟩ := hs.toGray u hu
  rcases List.mem_cons.1 hy with rfl | hy
  · -- `y` leads to a block below it, which leads to a gray one
    obtain ⟨y', hy', hle', hl'⟩ := hs.toGray z hz
    rcases List.mem_cons.1 hy' with rfl | hy'
    · omega
    · exact ⟨y', hy', by omega, hl.trans (hzl.trans hl')⟩
  · exact ⟨y, hy, hle, hl⟩

end Closing

/-- A visit that has looked at all exits ends with closing the component, if it is complete. -/
lemma Scanning.close (h : Scanning g region s₀ s gray v (g.targets v))
    (hs₀ : Open g region s₀ gray) (hv : ¬ s₀.Seen v) :
    Visited g region s₀ (s.close v) gray v := by
  obtain ⟨new, hnew, habove, hbelow, hvn⟩ := h.stack_eq
  have hseen : s.Seen v := h.isOpen.seen_of_mem h.mem
  by_cases hroot : s.ord v = s.lowest v
  · have hopen := h.open_of_root hs₀ hv hroot
    rw [close_of_root hseen hroot hnew hvn] at hopen ⊢
    exact ⟨hopen, ⟨h.extends_.number, h.extends_.next, h.extends_.later, h.extends_.unseen⟩, hseen,
      h.ord, h.low, ⟨[], rfl, by simp⟩, fun hvs => absurd (hbelow v hvs) (lt_irrefl _),
      fun _ => ⟨rfl, hroot.le⟩⟩
  · rw [close_of_ne hseen hroot]
    refine ⟨h.open_of_lt (lt_of_le_of_ne h.le (Ne.symm hroot)), h.extends_, hseen, h.ord, h.low,
      ⟨new ++ [v], by rw [hnew]; simp, h.fresh hs₀ hv habove⟩, fun _ => ⟨h.le, h.witness, ?_⟩,
      fun hvs => absurd h.mem hvs⟩
    intro x hx hle w hw he
    rcases Nat.lt_or_eq_of_le hle with hlt | heq
    · exact h.above x hx hlt w hw he
    · obtain rfl := h.isOpen.eq_of_ord h.mem hx heq
      exact (h.done w he.2.2 he).2 hw

end

section

variable {g : Graph B C} {region : Array Bool}

/-- Visiting a block looks at the targets of its exits. -/
lemma visit_succ (fuel v : Nat) (s : Search) : g.visit region (fuel + 1) v s =
    ((g.targets v).foldl (look region (g.visit region fuel) v) (s.enter v)).close v := rfl

/-- The fuel of a visit is enough when it bounds the number of blocks not discovered yet. -/
lemma visited_visit (hg : ∀ {u w}, g.Edge u w → w < g.blocks.size) {fuel v : Nat} {s : Search} {gray : List Nat}
    (h : Open g region s gray) (hv : v < g.blocks.size) (hn : ¬ s.Seen v)
    (hr : region.getD v false = true) (hreach : ∀ y ∈ gray, g.LeadsIn region y v)
    (hfuel : s.unseen ≤ fuel) : Visited g region s (g.visit region fuel v s) gray v := by
  have hvn : v < s.number.size := h.number_size ▸ hv
  have hunseen := unseen_enter hvn hn
  induction fuel generalizing v s gray with
  | zero => omega
  | succ fuel ih =>
    have hscan : ∀ (ws done : List Nat) (s' : Search), (∀ w ∈ ws, g.Edge v w) →
        Scanning g region s s' gray v done →
        Scanning g region s (ws.foldl (look region (g.visit region fuel) v) s') gray v
          (ws.reverse ++ done) := by
      intro ws
      induction ws with
      | nil => exact fun done s' _ h => h
      | cons w ws ihw =>
        intro done s' he hs'
        have hw : g.Edge v w := he w List.mem_cons_self
        have hvis : ¬ s'.Seen w → region.getD w false = true →
            Visited g region s' (g.visit region fuel w s') (v :: gray) w := by
          intro hnw hrw
          have hin : g.EdgeIn region v w := ⟨hr, hrw, hw⟩
          have hwn : w < s'.number.size := hs'.isOpen.number_size ▸ hg hw
          have hu := hs'.unseen
          refine ih hs'.isOpen (hg hw) hnw hrw (fun y hy => ?_) (by omega) hwn
            (unseen_enter hwn hnw)
          rcases List.mem_cons.1 hy with rfl | hy
          · exact .single hin
          · exact (hreach y hy).tail hin
        rw [List.foldl_cons, List.reverse_cons, List.append_assoc]
        exact ihw (w :: done) _ (fun u hu => he u (List.mem_cons_of_mem _ hu))
          (hs'.look hn hw hr hvis)
    have hlast := hscan (g.targets v) [] (s.enter v) (fun w hw => hw)
      (scanning_enter h hv hn hr hreach)
    rw [visit_succ]
    exact (hlast.of_done fun w hw he => hlast.done w (by simpa using hw) he).close h hn

end

end Search

/-! ### The components of a region -/

/-- A list of components that parts a region into strongly connected components, such that exits
lead from each to itself or to earlier ones. -/
structure Graph.Parted (g : Graph B C) (region : Array Bool) (cs : List (List Nat)) : Prop
    extends Search.Closed g region cs where
  mem : ∀ v, (∃ c ∈ cs, v ∈ c) ↔ v < g.blocks.size ∧ region.getD v false = true

namespace Search

variable {g : Graph B C} {region : Array Bool}

lemma num_start (count v : Nat) : (start count).num v = none := by
  simp only [num, start, Array.getD_eq_getD_getElem?, Array.getElem?_replicate]
  split <;> rfl

lemma open_start (g : Graph B C) (region : Array Bool) :
    Open g region (start g.blocks.size) [] := by
  have hn : ∀ v, ¬ (start g.blocks.size).Seen v := fun v h => h (num_start _ v)
  refine ⟨by simp [start], by simp [start], by simp [start], fun v hv => absurd hv (hn v),
    fun v hv => absurd hv (hn v), .nil, fun v => ⟨fun hv => absurd hv (hn v), ?_⟩, ?_, fun v => ?_,
    by simp, fun u w hu => absurd hu (hn u), by simp [start], by simp [start], ?_⟩
  · simp [start]
  · simp [start]
  · simp only [start, Array.getD_eq_getD_getElem?, Array.getElem?_replicate]
    split <;> simp
  · exact ⟨by simp [start], by simp [start], by simp [start], by simp [start]⟩

/-- Start a visit at a block of a region that has not been discovered. -/
def seek (g : Graph B C) (region : Array Bool) (s : Search) (v : Nat) : Search :=
  if region.getD v false && (s.number.getD v none).isNone then
    g.visit region g.blocks.size v s
  else s

/-- What visiting the blocks of a region, one after the other, has discovered. -/
lemma open_seek (hg : ∀ {u w}, g.Edge u w → w < g.blocks.size) {vs : List Nat} (hvs : ∀ v ∈ vs, v < g.blocks.size) {s : Search}
    (h : Open g region s []) :
    Open g region (vs.foldl (seek g region) s) [] ∧ Extends s (vs.foldl (seek g region) s) ∧
      ∀ v ∈ vs, region.getD v false = true → (vs.foldl (seek g region) s).Seen v := by
  induction vs generalizing s with
  | nil => exact ⟨h, ⟨fun _ _ => rfl, le_rfl, fun _ hu hu' => absurd hu hu', le_rfl⟩, by simp⟩
  | cons v vs ih =>
    have hstep : Open g region (seek g region s v) [] ∧ Extends s (seek g region s v) ∧
        (region.getD v false = true → (seek g region s v).Seen v) := by
      unfold seek
      split
      · next hv =>
        rw [Bool.and_eq_true, Option.isNone_iff_eq_none] at hv
        have hunseen : s.unseen ≤ g.blocks.size := by
          rw [Search.unseen, ← h.number_size]
          exact Array.count_le_size
        have hvis := visited_visit hg h (hvs v List.mem_cons_self) (fun hs => hs hv.2) hv.1
          (by simp) hunseen
        exact ⟨hvis.isOpen, hvis.extends_, fun _ => hvis.seen⟩
      · next hv =>
        refine ⟨h, .refl s, fun hr hn => ?_⟩
        rw [hr, Bool.true_and, Option.isNone_iff_eq_none] at hv
        exact hv hn
    obtain ⟨ho, he, hs⟩ := hstep
    obtain ⟨ho', he', hs'⟩ := ih (fun u hu => hvs u (List.mem_cons_of_mem _ hu)) ho
    refine ⟨ho', he.trans he', fun u hu hr => ?_⟩
    rcases List.mem_cons.1 hu with rfl | hu
    · exact he'.seen (hs hr)
    · exact hs' u hu hr

end Search

/-- The search finds the strongly connected components of a region, each after those that it
leads to. -/
theorem Graph.parted_components {g : Graph B C} (hg : ∀ {u w}, g.Edge u w → w < g.blocks.size)
    (region : Array Bool) : g.Parted region (g.components region) := by
  obtain ⟨ho, -, hs⟩ := Search.open_seek hg
    (fun v hv => List.mem_range.1 hv) (Search.open_start g region)
  have hstack : ∀ v, v ∉ ((List.range g.blocks.size).foldl (Search.seek g region)
      (Search.start g.blocks.size)).stack := by
    intro v hv
    obtain ⟨y, hy, -⟩ := ho.toGray v hv
    cases hy
  refine ⟨ho.closed, fun v => ⟨fun hv => ?_, fun ⟨hv, hr⟩ => ?_⟩⟩
  · have hseen := (ho.seen_iff v).2 (.inr hv)
    exact ⟨ho.lt hseen, ho.inRegion v hseen⟩
  · rcases (ho.seen_iff v).1 (hs v (List.mem_range.2 hv) hr) with hv | hv
    · exact absurd hv (hstack v)
    · exact hv

end Dynarec.Flow
