import Mathlib.Algebra.GroupWithZero.Nat
import Mathlib.Algebra.Order.BigOperators.Group.List
import Mathlib.Algebra.Order.Group.Nat
import Dynarec.Proofs.Flow.Climb

/-!
# Rounds over the candidates

Renewing the candidate of a block moves it up, to a lower number. So the rounds over all blocks come
to an end, and then the candidate of every block is the lowest block above all its predecessors,
from which it follows that the blocks above a block are its dominators. This holds of every graph:
where an exit leads back to a block that does not dominate its source, more than one round may
change candidates.
-/

namespace Dynarec.Flow.Graph

open Relation (ReflTransGen TransGen)

variable {B C : Type} {g : Graph B C} {order : List Nat} {idom : Array (Option Nat)}
  {a b c d k m x y : Nat}

/-! ### What a round has done -/

/-- The first `k` blocks of the order have candidates, each of which is above all earlier sources of
exits to its block. -/
structure Swept (g : Graph B C) (order : List Nat) (k : Nat) (idom : Array (Option Nat)) :
    Prop where
  found : ∀ y ∈ order, order.idxOf y < k → Found idom y
  above {p y d : Nat} : g.Forward order p y → order.idxOf y < k → idom.getD y none = some d →
    Above idom d p

/-- What is above the end of a forward path and no later than its start is above its start. -/
lemma Swept.above_of_path (h : g.Numbered order) (hs : Swept g order k idom)
    (hp : ReflTransGen (g.Forward order) d x) (hx : order.idxOf x < k)
    (hle : order.idxOf m ≤ order.idxOf d) (hm : Above idom m x) : Above idom m d := by
  induction hp with
  | refl => exact hm
  | @tail p x hp hf ih =>
    have hpd := idxOf_le_of_forward hp
    have hlt := hf.2.2
    obtain ⟨e, he⟩ := hs.found x (h.mem_of_edge hf.1 hf.2.1) hx
    have hne : m ≠ x := by
      rintro rfl
      omega
    exact ih (hlt.trans hx) ((((above_iff he).1 hm).resolve_left hne).trans (hs.above hf hx he))

/-- A block that is no later than another one is earlier. -/
lemma idxOf_lt_of_ne (hy : y ∈ order) (hlt : order.idxOf y < order.idxOf b + 1) (hne : y ≠ b) :
    order.idxOf y < order.idxOf b :=
  lt_of_le_of_ne (Nat.le_of_lt_succ hlt) fun e => hne ((List.idxOf_inj hy).1 e)

/-- The block `m` is the lowest one above all sources of exits to `b` that have candidates. -/
structure Next (g : Graph B C) (order : List Nat) (idom : Array (Option Nat)) (b m : Nat) :
    Prop where
  found : Found idom m
  above : ∀ a, Above idom a m ↔ ∀ p ∈ order, g.Edge p b → Found idom p → Above idom a p

lemma Next.above_source (hn : Next g order idom b m) {p : Nat} (hp : p ∈ order) (he : g.Edge p b)
    (hf : Found idom p) : Above idom m p :=
  (hn.above m).1 (.refl ..) p hp he hf

/-- The next candidate for a block is found. -/
lemma Candidates.exists_next (hc : Candidates g order idom) (h : g.Numbered order)
    (hs : Swept g order (order.idxOf b) idom) (hb : b ∈ order) (hne : b ≠ g.entry) :
    ∃ m, nextIdom (g.positions order) idom ((g.predecessors order).getD b []) = some m ∧
      Gathers (g.positions order) idom ((g.predecessors order).getD b []) none (some m) ∧
      Next g order idom b m := by
  have hmem := fun u => mem_predecessors order u (h.lt hb)
  obtain ⟨u, hu, he, hlt⟩ := h.exists_earlier hb hne
  have hstart : Lowest idom [] none := .inl ⟨rfl, by simp⟩
  obtain ⟨hgathers, hlowest⟩ := hc.gathers_foldl h ((g.predecessors order).getD b []) hstart
  rw [← nextIdom_eq] at hgathers hlowest
  rcases hlowest with ⟨-, hnone⟩ | ⟨m, hm, hf, habove⟩
  · exact absurd (hs.found u hu hlt) (hnone u ((hmem u).2 ⟨hu, he⟩))
  · refine ⟨m, hm, hm ▸ hgathers, hf, fun a => (habove a).trans ?_⟩
    exact ⟨fun hall p hp he => hall p ((hmem p).2 ⟨hp, he⟩),
      fun hall p hp => hall p ((hmem p).1 hp).1 ((hmem p).1 hp).2⟩

/-! ### Renewing one candidate -/

section

variable (h : g.Numbered order) (hc : Candidates g order idom)
  (hs : Swept g order (order.idxOf b) idom) (hb : b ∈ order) (hne : b ≠ g.entry)
  (hn : Next g order idom b m)

include h hc hs hb hne hn in
/-- A forward path leads from the next candidate to its block. -/
lemma path_of_next : TransGen (g.Forward order) m b := by
  obtain ⟨u, hu, he, hlt⟩ := h.exists_earlier hb hne
  exact TransGen.tail' (hc.forward (hn.above_source hu he (hs.found u hu hlt))) ⟨hu, he, hlt⟩

include h hc hs hb hne hn in
/-- The dominators of a block other than itself dominate its next candidate. -/
lemma closer_next (hd : g.Dom a b) (hab : a ≠ b) : g.Dom a m := by
  have habove : Above idom a m :=
    (hn.above a).2 fun p _ he hf => hc.above_of_dom hf (hd.source hab he)
  by_cases ham : a = m
  · exact ham ▸ Dom.refl g a
  · exact fun hav => hd (hav.forward (hc.idxOf_lt h hn.found habove ham)
      (path_of_next h hc hs hb hne hn).to_reflTransGen)

include h hc hs hne hn in
/-- The next candidate is above the one before, or it is the same. -/
lemma above_next (hd : idom.getD b none = some d) :
    order.idxOf m ≤ order.idxOf d ∧ Above idom m d := by
  have hle := hc.lowest hne hd m fun p hp he hf => hn.above_source hp he hf
  -- the last block before `b` on a path from the old candidate has been swept in this round
  obtain ⟨q, hq, hf⟩ := TransGen.tail'_iff.1 (hc.path hne hd)
  exact ⟨hle, hs.above_of_path h hq hf.2.2 hle
    (hn.above_source hf.1 hf.2.1 (hs.found q hf.1 hf.2.2))⟩

include h hc hb in
lemma getD_renewed : (idom.setIfInBounds b (some m)).getD x none =
    if x = b then some m else idom.getD x none := by
  rw [getD_setIfInBounds, hc.size]
  by_cases hx : x = b
  · subst hx
    rw [if_pos ⟨rfl, h.lt hb⟩, if_pos rfl]
  · rw [if_neg fun hbx => hx hbx.1.symm, if_neg hx]

include h hc hb in
lemma found_renewed (hx : Found idom x) : Found (idom.setIfInBounds b (some m)) x := by
  unfold Found
  rw [getD_renewed h hc hb]
  split
  · exact ⟨m, rfl⟩
  · exact hx

include h hc hs hb hne hn in
/-- A block that had a candidate before has no new ones above it. -/
lemma above_of_renewed (hx : Found idom x) (ha : Above (idom.setIfInBounds b (some m)) a x) :
    Above idom a x := by
  induction ha using ReflTransGen.head_induction_on with
  | refl => exact .refl ..
  | @head x d hd _ ih =>
    rw [getD_renewed h hc hb] at hd
    obtain ⟨e, he⟩ := hx
    split at hd
    · next hxb =>
      subst hxb
      obtain rfl := Option.some_inj.1 hd
      exact (above_iff he).2 (.inr ((ih hn.found).trans (above_next h hc hs hne hn he).2))
    · obtain rfl := Option.some_inj.1 (he.symm.trans hd)
      exact (above_iff he).2 (.inr (ih (hc.found he)))

include h hc hb in
/-- What is above earlier blocks stays above them. -/
lemma above_renewed (hx : order.idxOf x < order.idxOf b) (ha : Above idom a x) :
    Above (idom.setIfInBounds b (some m)) a x := by
  induction ha using ReflTransGen.head_induction_on with
  | refl => exact .refl ..
  | @head x d hd _ ih =>
    have hxb : x ≠ b := by
      rintro rfl
      exact absurd hx (Nat.lt_irrefl _)
    have hle := hc.idxOf_le ((above_iff hd).2 (.inr (.refl ..)))
    refine (above_iff ?_).2 (.inr (ih (hle.trans_lt hx)))
    rw [getD_renewed h hc hb, if_neg hxb, hd]

include h hc hs hb hne hn in
/-- Renewing the candidate of a block keeps what holds of the candidates. -/
lemma candidates_renewed : Candidates g order (idom.setIfInBounds b (some m)) where
  size := by simpa using hc.size
  entry := by rw [getD_renewed h hc hb, if_neg hne.symm, hc.entry]
  found hd := by
    rw [getD_renewed h hc hb] at hd
    split at hd
    · exact Option.some_inj.1 hd ▸ found_renewed h hc hb hn.found
    · exact found_renewed h hc hb (hc.found hd)
  path hxe hd := by
    rw [getD_renewed h hc hb] at hd
    split at hd
    · next hxb => exact Option.some_inj.1 hd ▸ hxb ▸ path_of_next h hc hs hb hne hn
    · exact hc.path hxe hd
  closer hxe hd a ha hax := by
    rw [getD_renewed h hc hb] at hd
    split at hd
    · next hxb =>
      subst hxb
      exact Option.some_inj.1 hd ▸ closer_next h hc hs hb hne hn ha hax
    · exact hc.closer hxe hd a ha hax
  lowest hxe hd c hall := by
    -- nothing comes to be above all sources of exits to a block that was not before
    have hall' : ∀ p ∈ order, g.Edge p _ → Found idom p → Above idom c p := fun p hp he hf =>
      above_of_renewed h hc hs hb hne hn hf (hall p hp he (found_renewed h hc hb hf))
    rw [getD_renewed h hc hb] at hd
    split at hd
    · next hxb =>
      subst hxb
      exact Option.some_inj.1 hd ▸ hc.idxOf_le ((hn.above c).2 hall')
    · exact hc.lowest hxe hd c hall'

include h hc hs hb hn in
/-- The next block is swept by renewing its candidate. -/
lemma swept_renewed : Swept g order (order.idxOf b + 1) (idom.setIfInBounds b (some m)) where
  found y hy hlt := by
    by_cases hyb : y = b
    · exact ⟨m, by rw [getD_renewed h hc hb, if_pos hyb]⟩
    · exact found_renewed h hc hb (hs.found y hy (idxOf_lt_of_ne hy hlt hyb))
  above {p y d} hf hlt hd := by
    rw [getD_renewed h hc hb] at hd
    have hpy := hf.2.2
    refine above_renewed h hc hb (by omega) ?_
    split at hd
    · next hyb =>
      subst hyb
      exact Option.some_inj.1 hd ▸ hn.above_source hf.1 hf.2.1 (hs.found p hf.1 hpy)
    · next hyb => exact hs.above hf (idxOf_lt_of_ne (h.mem_of_edge hf.1 hf.2.1) hlt hyb) hd

include h hs hn in
/-- The next block is swept when its candidate is the next one already. -/
lemma swept_of_next (hd : idom.getD b none = some m) : Swept g order (order.idxOf b + 1) idom where
  found y hy hlt := by
    by_cases hyb : y = b
    · exact ⟨m, hyb ▸ hd⟩
    · exact hs.found y hy (idxOf_lt_of_ne hy hlt hyb)
  above {p y d} hf hlt hdy := by
    by_cases hyb : y = b
    · subst hyb
      obtain rfl := Option.some_inj.1 (hd.symm.trans hdy)
      exact hn.above_source hf.1 hf.2.1 (hs.found p hf.1 hf.2.2)
    · exact hs.above hf (idxOf_lt_of_ne (h.mem_of_edge hf.1 hf.2.1) hlt hyb) hdy

end

/-! ### Rounds -/

/-- How far down the candidates of the blocks are, a missing one being below all others. -/
def weight (order : List Nat) (idom : Array (Option Nat)) : Nat :=
  (order.map fun v => (idom.getD v none).elim order.length order.idxOf).sum

/-- Another candidate for a block is higher up. -/
lemma weight_renewed (h : g.Numbered order) (hc : Candidates g order idom)
    (hs : Swept g order (order.idxOf b) idom) (hb : b ∈ order) (hne : b ≠ g.entry)
    (hn : Next g order idom b m) (hm : idom.getD b none ≠ some m) :
    weight order (idom.setIfInBounds b (some m)) < weight order idom := by
  have hmo := hc.mem h hn.found
  have hlt : order.idxOf m < (idom.getD b none).elim order.length order.idxOf := by
    cases hd : idom.getD b none with
    | none => exact List.idxOf_lt_length_iff.2 hmo
    | some d =>
      refine lt_of_le_of_ne (above_next h hc hs hne hn hd).1 fun e => hm ?_
      rw [hd, (List.idxOf_inj hmo).1 e]
  refine List.sum_lt_sum _ _ (fun v _ => ?_) ⟨b, hb, ?_⟩
  · rw [getD_renewed h hc hb]
    split
    · next hvb => exact hvb ▸ hlt.le
    · exact Nat.le_refl _
  · rw [getD_renewed h hc hb, if_pos rfl]
    exact hlt

/-- A round over some blocks, and whether it changes a candidate. -/
inductive Passes (number : Array Nat) (preds : Array (List Nat)) :
    List Nat → Array (Option Nat) × Bool → Array (Option Nat) × Bool → Prop
  | nil (state : Array (Option Nat) × Bool) : Passes number preds [] state state
  | keep {b : Nat} {bs : List Nat} {idom : Array (Option Nat)} {changed : Bool} {next : Option Nat}
    {last : Array (Option Nat) × Bool} : Gathers number idom (preds.getD b []) none next →
    next = none ∨ idom.getD b none = next → Passes number preds bs (idom, changed) last →
    Passes number preds (b :: bs) (idom, changed) last
  | change {b m : Nat} {bs : List Nat} {idom : Array (Option Nat)} {changed : Bool}
    {last : Array (Option Nat) × Bool} : Gathers number idom (preds.getD b []) none (some m) →
    idom.getD b none ≠ some m → Passes number preds bs (idom.setIfInBounds b (some m), true) last →
    Passes number preds (b :: bs) (idom, changed) last

/-- Rounds that come to an end: the last one, and no other, changes nothing. -/
inductive Settles (number : Array Nat) (preds : Array (List Nat)) (blocks : List Nat) :
    Array (Option Nat) → Array (Option Nat) → Prop
  | stop {idom last : Array (Option Nat)} :
    Passes number preds blocks (idom, false) (last, false) → Settles number preds blocks idom last
  | again {idom idom' last : Array (Option Nat)} :
    Passes number preds blocks (idom, false) (idom', true) →
    Settles number preds blocks idom' last → Settles number preds blocks idom last

/-- Renew the candidate of one block. -/
def renew (g : Graph B C) (order : List Nat) (state : Array (Option Nat) × Bool) (b : Nat) :
    Array (Option Nat) × Bool :=
  let next := nextIdom (g.positions order) state.1 ((g.predecessors order).getD b [])
  if next.isSome && state.1.getD b none != next then (state.1.setIfInBounds b next, true)
  else state

lemma idomPass_eq (blocks : List Nat) (idom : Array (Option Nat)) :
    idomPass (g.positions order) (g.predecessors order) blocks idom =
      blocks.foldl (renew g order) (idom, false) := rfl

/-- A round either leaves all candidates, which are then the next ones, or moves some of them up. -/
lemma passes_foldl (h : g.Numbered order) {pre post : List Nat} (heq : order = pre ++ post)
    (hpre : pre ≠ []) (changed : Bool) {idom : Array (Option Nat)} (hc : Candidates g order idom)
    (hs : Swept g order pre.length idom) :
    Passes (g.positions order) (g.predecessors order) post (idom, changed)
        (post.foldl (renew g order) (idom, changed)) ∧
      Candidates g order (post.foldl (renew g order) (idom, changed)).1 ∧
      (post.foldl (renew g order) (idom, changed) = (idom, changed) ∧
          (∀ b ∈ post, ∃ m, idom.getD b none = some m ∧ Next g order idom b m) ∨
        (post.foldl (renew g order) (idom, changed)).2 = true ∧
          weight order (post.foldl (renew g order) (idom, changed)).1 < weight order idom) := by
  induction post generalizing pre idom changed with
  | nil => exact ⟨.nil _, hc, .inl ⟨rfl, by simp⟩⟩
  | cons b post ih =>
    have hb : b ∈ order := heq ▸ List.mem_append_right _ List.mem_cons_self
    have hbk : order.idxOf b = pre.length := by
      rw [heq, idxOf_append_cons (heq ▸ h.ordered.nodup)]
    have hne : b ≠ g.entry := by
      rintro rfl
      have hzero := (h.idxOf_eq_zero hb).2 rfl
      rw [hbk] at hzero
      exact hpre (List.length_eq_zero_iff.1 hzero)
    have hrest : order = (pre ++ [b]) ++ post := heq.trans (by simp)
    have hlen : (pre ++ [b]).length = order.idxOf b + 1 := by simp [hbk]
    rw [← hbk] at hs
    obtain ⟨m, hm, hgathers, hn⟩ := hc.exists_next h hs hb hne
    rw [List.foldl_cons]
    by_cases hd : idom.getD b none = some m
    · have hrenew : renew g order (idom, changed) b = (idom, changed) := by
        simp only [renew, hm, hd, bne_self_eq_false, Bool.and_false, Bool.false_eq_true, if_false]
      obtain ⟨hpass, hc', hlast⟩ := ih hrest (by simp) changed hc
        (hlen ▸ swept_of_next h hs hn hd)
      rw [hrenew]
      refine ⟨.keep hgathers (.inr hd) hpass, hc', hlast.imp_left fun hl => ⟨hl.1, ?_⟩⟩
      exact List.forall_mem_cons.2 ⟨⟨m, hd, hn⟩, hl.2⟩
    · have hrenew : renew g order (idom, changed) b = (idom.setIfInBounds b (some m), true) := by
        simp only [renew, hm, Option.isSome_some, bne_iff_ne.2 hd, Bool.and_self, if_true]
      obtain ⟨hpass, hc', hlast⟩ := ih hrest (by simp) true
        (candidates_renewed h hc hs hb hne hn) (hlen ▸ swept_renewed h hc hs hb hn)
      have hlt := weight_renewed h hc hs hb hne hn hd
      rw [hrenew]
      refine ⟨.change hgathers hd hpass, hc', .inr ?_⟩
      rcases hlast with ⟨hl, -⟩ | ⟨hl, hlt'⟩
      · rw [hl]
        exact ⟨rfl, hlt⟩
      · exact ⟨hl, hlt'.trans hlt⟩

/-! ### The end -/

/-- When all candidates are the next ones, only dominators are above a block. -/
lemma Candidates.dom_of_above (hc : Candidates g order idom) (h : g.Numbered order)
    (hnext : ∀ b ∈ order, b ≠ g.entry → ∃ m, idom.getD b none = some m ∧ Next g order idom b m)
    (ha : Above idom a b) : g.Dom a b := by
  have hfound : ∀ x ∈ order, Found idom x := by
    intro x hx
    by_cases hxe : x = g.entry
    · exact ⟨g.entry, hxe ▸ hc.entry⟩
    · obtain ⟨m, hm, -⟩ := hnext x hx hxe
      exact ⟨m, hm⟩
  -- `a` is above no block of a path that avoids it
  rintro ⟨hae, hp⟩
  have hnot : ∀ x, ReflTransGen (fun u w => g.Edge u w ∧ w ≠ a) g.entry x →
      x ∈ order ∧ ¬ Above idom a x := by
    intro x hx
    induction hx with
    | refl => exact ⟨h.entry_mem, fun ha => hae (hc.eq_entry ha)⟩
    | @tail u w _ he ih =>
      have hw := h.mem_of_edge ih.1 he.1
      refine ⟨hw, fun ha => ?_⟩
      by_cases hwe : w = g.entry
      · exact hae (hc.eq_entry (hwe ▸ ha))
      · obtain ⟨m, hm, hn⟩ := hnext w hw hwe
        exact ih.2 ((((above_iff hm).1 ha).resolve_left (Ne.symm he.2)).trans
          (hn.above_source ih.1 he.1 (hfound u ih.1)))
  exact (hnot b hp).2 ha

/-- When all candidates are the next ones, they are the immediate dominators. -/
lemma Candidates.known (hc : Candidates g order idom) (h : g.Numbered order)
    (hnext : ∀ b ∈ order, b ≠ g.entry → ∃ m, idom.getD b none = some m ∧ Next g order idom b m) :
    Known g order idom := by
  intro v hv hve
  obtain ⟨d, hd, -⟩ := hnext v hv hve
  have habove : Above idom d v := (above_iff hd).2 (.inr (.refl ..))
  refine ⟨d, hd, h.isIdom_of_closest hv (hc.dom_of_above h hnext habove) ?_ (hc.closer hve hd)⟩
  rintro rfl
  exact absurd (idxOf_lt_of_forward (hc.path hve hd)) (Nat.lt_irrefl _)

/-- The rounds come to an end before the weight is used up. -/
lemma settles_idomRounds (h : g.Numbered order) {rest : List Nat} (hrest : order = g.entry :: rest)
    {fuel : Nat} (hc : Candidates g order idom) (hfuel : weight order idom < fuel) :
    Settles (g.positions order) (g.predecessors order) rest idom
        (idomRounds (g.positions order) (g.predecessors order) rest fuel idom) ∧
      Known g order (idomRounds (g.positions order) (g.predecessors order) rest fuel idom) := by
  induction fuel generalizing idom with
  | zero => omega
  | succ fuel ih =>
    -- a round starts anew, with only the entry swept
    have hs : Swept g order 1 idom := by
      have hzero : ∀ y ∈ order, order.idxOf y < 1 → y = g.entry := fun y hy hlt =>
        (h.idxOf_eq_zero hy).1 (Nat.lt_one_iff.1 hlt)
      refine ⟨fun y hy hlt => ⟨g.entry, hzero y hy hlt ▸ hc.entry⟩, fun hf hlt _ => ?_⟩
      exact absurd hf.2.2 (by omega)
    have heq : order = [g.entry] ++ rest := hrest
    obtain ⟨hpass, hc', hlast⟩ := passes_foldl h heq (by simp) false hc hs
    rw [idomRounds, idomPass_eq]
    generalize rest.foldl (renew g order) (idom, false) = last at hpass hc' hlast ⊢
    obtain ⟨idom', changed⟩ := last
    rcases hlast with ⟨hl, hnext⟩ | ⟨rfl, hlt⟩
    · obtain ⟨rfl, rfl⟩ := Prod.mk.inj hl
      refine ⟨.stop hpass, hc.known h fun b hb hne => hnext b ?_⟩
      exact (List.mem_cons.1 (hrest ▸ hb)).resolve_left hne
    · exact (ih hc' (by omega)).imp_left (.again hpass)

/-- At first only the entry has a candidate. -/
lemma candidates_start (hg : g.InRange) (order : List Nat) :
    Candidates g order
      ((Array.replicate g.blocks.size none).setIfInBounds g.entry (some g.entry)) := by
  have hget : ∀ x, ((Array.replicate g.blocks.size none).setIfInBounds g.entry
      (some g.entry)).getD x none = if x = g.entry then some g.entry else none := by
    intro x
    rw [getD_setIfInBounds, getD_replicate, Array.size_replicate]
    by_cases hx : x = g.entry
    · rw [if_pos ⟨hx.symm, hx ▸ hg.entry⟩, if_pos hx]
    · rw [if_neg fun hn => hx hn.1.symm, if_neg hx]
  have hnone : ∀ {x d}, x ≠ g.entry → ((Array.replicate g.blocks.size none).setIfInBounds g.entry
      (some g.entry)).getD x none ≠ some d := by
    intro x d hx hd
    rw [hget, if_neg hx] at hd
    cases hd
  refine ⟨by simp, by rw [hget, if_pos rfl], fun {x d} hd => ?_, fun hx hd => absurd hd (hnone hx),
    fun hx hd => absurd hd (hnone hx), fun hx hd => absurd hd (hnone hx)⟩
  rw [hget] at hd
  split at hd
  · exact ⟨g.entry, by rw [hget, if_pos (Option.some_inj.1 hd).symm]⟩
  · cases hd

/-- The rounds come to an end, and with the immediate dominators of all blocks. -/
theorem settles_immediateDominators (h : g.Numbered order) :
    Settles (g.positions order) (g.predecessors order) (order.drop 1)
        ((Array.replicate g.blocks.size none).setIfInBounds g.entry (some g.entry))
        (g.immediateDominators order) ∧
      Known g order (g.immediateDominators order) := by
  obtain ⟨rest, hrest, -⟩ := h.exists_rest
  have hdrop : order.drop 1 = rest := by rw [hrest]; rfl
  have hc := candidates_start h.toInRange order
  rw [immediateDominators, hdrop]
  refine settles_idomRounds h hrest hc (Nat.lt_succ_of_le ?_)
  calc weight order _ ≤ order.length * order.length := by
        refine (List.sum_le_card_nsmul _ order.length fun n hn => ?_).trans (by simp)
        obtain ⟨v, -, rfl⟩ := List.mem_map.1 hn
        cases hd : Array.getD _ v none with
        | none => exact Nat.le_refl _
        | some d => exact (List.idxOf_lt_length_iff.2 (hc.mem h (hc.found hd))).le
    _ ≤ g.blocks.size * g.blocks.size := Nat.mul_le_mul h.length_le h.length_le

end Dynarec.Flow.Graph
