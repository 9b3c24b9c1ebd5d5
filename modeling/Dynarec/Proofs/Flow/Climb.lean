import Dynarec.Proofs.Flow.Idom

/-!
# Climbing to dominators

The immediate dominators are found by renewing candidates for them. `Candidates` says what holds of
the candidates in every graph, also while some are still missing and others are too far down: they
make a tree in which all dominators of a block are above it. `Graph.meet` climbs in this tree from
the later of two blocks until both are the same, which gives the lowest block above both.
-/

namespace Dynarec.Flow.Graph

open Relation (ReflTransGen TransGen)

variable {B C : Type} {g : Graph B C} {order : List Nat} {idom : Array (Option Nat)}
  {a b c d m x y : Nat}

/-! ### Forward paths -/

/-- Some exit of a block of the order leads to a later one. -/
def Forward (g : Graph B C) (order : List Nat) (u w : Nat) : Prop :=
  u ∈ order ∧ g.Edge u w ∧ order.idxOf u < order.idxOf w

lemma idxOf_le_of_forward (h : ReflTransGen (g.Forward order) a b) :
    order.idxOf a ≤ order.idxOf b := by
  induction h with
  | refl => exact Nat.le_refl _
  | tail _ hf ih => exact ih.trans hf.2.2.le

lemma idxOf_lt_of_forward (h : TransGen (g.Forward order) a b) :
    order.idxOf a < order.idxOf b := by
  obtain ⟨q, hq, hf⟩ := TransGen.tail'_iff.1 h
  exact (idxOf_le_of_forward hq).trans_lt hf.2.2

/-- A forward path does not come to blocks before its start. -/
lemma Avoids.forward (h : g.Avoids a b) (hlt : order.idxOf a < order.idxOf b)
    (hp : ReflTransGen (g.Forward order) b c) : g.Avoids a c := by
  induction hp with
  | refl => exact h
  | tail hp hf ih =>
    refine ih.tail hf.2.1 ?_
    rintro rfl
    exact absurd (idxOf_le_of_forward (hp.tail hf)) (Nat.not_le_of_lt hlt)

/-! ### Candidates -/

/-- There is a candidate for the dominator of a block. -/
def Found (idom : Array (Option Nat)) (x : Nat) : Prop := ∃ d, idom.getD x none = some d

/-- Climbing from `b` to its candidate, to that one's candidate and so on meets `a`. -/
def Above (idom : Array (Option Nat)) (a b : Nat) : Prop :=
  ReflTransGen (fun x d => idom.getD x none = some d) b a

lemma Above.refl (idom : Array (Option Nat)) (a : Nat) : Above idom a a := ReflTransGen.refl

lemma Above.trans (h : Above idom a b) (h' : Above idom b c) : Above idom a c :=
  ReflTransGen.trans h' h

/-- A block that is above another one is above its candidate. -/
lemma above_iff (hb : idom.getD b none = some d) : Above idom a b ↔ a = b ∨ Above idom a d := by
  refine ReflTransGen.cases_head_iff.trans (or_congr eq_comm ⟨?_, fun ha => ⟨d, hb, ha⟩⟩)
  rintro ⟨e, he, ha⟩
  rw [hb] at he
  exact Option.some_inj.1 he ▸ ha

/-- What holds of the candidates for the immediate dominators of the blocks: the candidate of a
block is an earlier one that a forward path leads from, it has a candidate itself, all other
dominators of the block dominate it, and no block above all sources of exits to the block is
later. -/
structure Candidates (g : Graph B C) (order : List Nat) (idom : Array (Option Nat)) : Prop where
  size : idom.size = g.blocks.size
  entry : idom.getD g.entry none = some g.entry
  found {x d : Nat} : idom.getD x none = some d → Found idom d
  path {x d : Nat} : x ≠ g.entry → idom.getD x none = some d → TransGen (g.Forward order) d x
  closer {x d : Nat} : x ≠ g.entry → idom.getD x none = some d →
    ∀ a, g.Dom a x → a ≠ x → g.Dom a d
  lowest {x d : Nat} : x ≠ g.entry → idom.getD x none = some d →
    ∀ c, (∀ p ∈ order, g.Edge p x → Found idom p → Above idom c p) → order.idxOf c ≤ order.idxOf d

namespace Candidates

variable (hc : Candidates g order idom)
include hc

/-- A forward path leads from a block to those that it is above. -/
lemma forward (h : Above idom a b) : ReflTransGen (g.Forward order) a b := by
  induction h with
  | refl => exact .refl
  | @tail x d _ hd ih =>
    by_cases hx : x = g.entry
    · subst hx
      rw [hc.entry] at hd
      exact Option.some_inj.1 hd ▸ ih
    · exact (hc.path hx hd).to_reflTransGen.trans ih

/-- Only the entry is above the entry. -/
lemma eq_entry (h : Above idom a g.entry) : a = g.entry := by
  induction h with
  | refl => rfl
  | tail _ hd ih =>
    subst ih
    exact Option.some_inj.1 (hd.symm.trans hc.entry)

lemma idxOf_le (h : Above idom a b) : order.idxOf a ≤ order.idxOf b :=
  idxOf_le_of_forward (hc.forward h)

lemma found_of_above (hb : Found idom b) (h : Above idom a b) : Found idom a := by
  induction h with
  | refl => exact hb
  | tail _ hd _ => exact hc.found hd

lemma mem (h : g.Numbered order) (hx : Found idom x) : x ∈ order := by
  obtain ⟨d, hd⟩ := hx
  by_cases hxe : x = g.entry
  · exact hxe ▸ h.entry_mem
  · obtain ⟨q, _, hf⟩ := TransGen.tail'_iff.1 (hc.path hxe hd)
    exact h.mem_of_edge hf.1 hf.2.1

/-- A block above another one is earlier. -/
lemma idxOf_lt (h : g.Numbered order) (hb : Found idom b) (ha : Above idom a b) (hne : a ≠ b) :
    order.idxOf a < order.idxOf b :=
  lt_of_le_of_ne (hc.idxOf_le ha) fun e =>
    hne ((List.idxOf_inj (hc.mem h (hc.found_of_above hb ha))).1 e)

/-- The dominators of a block with a candidate are above it. -/
lemma above_of_dom (hb : Found idom b) (hd : g.Dom a b) : Above idom a b := by
  induction hk : order.idxOf b using Nat.strong_induction_on generalizing b with
  | h k ih =>
    subst hk
    obtain ⟨d, hdb⟩ := hb
    by_cases hab : a = b
    · exact hab ▸ Above.refl idom a
    · have hbe : b ≠ g.entry := by
        rintro rfl
        exact hab hd.eq_entry
      exact (above_iff hdb).2 (.inr (ih _ (idxOf_lt_of_forward (hc.path hbe hdb)) (hc.found hdb)
        (hc.closer hbe hdb a hd hab) rfl))

end Candidates

/-! ### The lowest block above two -/

/-- The walk from two blocks up to the same one, always from the one with the higher number to its
candidate. There is no walk on from a block without a candidate. -/
inductive Meets (number : Array Nat) (idom : Array (Option Nat)) : Nat → Nat → Nat → Prop
  | same (a : Nat) : Meets number idom a a a
  | left {a b d m : Nat} : number.getD b 0 < number.getD a 0 → idom.getD a none = some d →
    Meets number idom d b m → Meets number idom a b m
  | right {a b d m : Nat} : number.getD a 0 < number.getD b 0 → idom.getD b none = some d →
    Meets number idom a d m → Meets number idom a b m

/-- Climbing from the later of two blocks keeps the blocks above both. -/
lemma Candidates.climb (hc : Candidates g order idom) (hlt : order.idxOf y < order.idxOf x)
    (hd : idom.getD x none = some d) : Above idom a d ∧ Above idom a y ↔
      Above idom a x ∧ Above idom a y := by
  rw [above_iff hd]
  refine and_congr_left fun hay => (or_iff_right ?_).symm
  rintro rfl
  exact absurd (hc.idxOf_le hay) (Nat.not_le_of_lt hlt)

/-- A block that is not the first has an earlier candidate. -/
lemma Candidates.exists_lower (hc : Candidates g order idom) (h : g.Numbered order)
    (hx : Found idom x) (hlt : order.idxOf y < order.idxOf x) :
    ∃ d, idom.getD x none = some d ∧ order.idxOf d < order.idxOf x := by
  obtain ⟨d, hd⟩ := hx
  have hxe : x ≠ g.entry := by
    rintro rfl
    rw [(h.idxOf_eq_zero h.entry_mem).2 rfl] at hlt
    exact absurd hlt (Nat.not_lt_zero _)
  exact ⟨d, hd, idxOf_lt_of_forward (hc.path hxe hd)⟩

/-- The walk from two blocks ends at the lowest one above both. -/
lemma Candidates.meets_meet (hc : Candidates g order idom) (h : g.Numbered order)
    {fuel : Nat} (hx : Found idom x) (hy : Found idom y)
    (hfuel : order.idxOf x + order.idxOf y ≤ fuel) :
    Meets (g.positions order) idom x y (meet (g.positions order) idom fuel x y) ∧
      ∀ a, Above idom a (meet (g.positions order) idom fuel x y) ↔
        Above idom a x ∧ Above idom a y := by
  have hxo := hc.mem h hx
  have hyo := hc.mem h hy
  induction fuel generalizing x y with
  | zero =>
    obtain rfl : x = y := (List.idxOf_inj hxo).1 (by omega)
    exact ⟨.same _, fun a => and_self_iff.symm⟩
  | succ fuel ih =>
    rw [meet]
    by_cases hxy : x = y
    · subst hxy
      rw [if_pos rfl]
      exact ⟨.same _, fun a => and_self_iff.symm⟩
    · have hnx := h.getD_positions hxo
      have hny := h.getD_positions hyo
      rw [if_neg hxy, hnx, hny]
      split
      · next hlt =>
        obtain ⟨d, hd, hdlt⟩ := hc.exists_lower h hx hlt
        have hfd := hc.found hd
        obtain ⟨hmeets, habove⟩ := ih hfd hy (by omega) (hc.mem h hfd) hyo
        rw [hd, Option.getD_some]
        exact ⟨.left (by rwa [hnx, hny]) hd hmeets, fun a => (habove a).trans (hc.climb hlt hd)⟩
      · next hnlt =>
        have hlt : order.idxOf x < order.idxOf y :=
          lt_of_le_of_ne (Nat.le_of_not_lt hnlt) fun e => hxy ((List.idxOf_inj hxo).1 e)
        obtain ⟨d, hd, hdlt⟩ := hc.exists_lower h hy hlt
        have hfd := hc.found hd
        obtain ⟨hmeets, habove⟩ := ih hx hfd (by omega) hxo (hc.mem h hfd)
        rw [hd, Option.getD_some]
        refine ⟨.right (by rwa [hnx, hny]) hd hmeets, fun a => (habove a).trans ?_⟩
        rw [and_comm, hc.climb hlt hd, and_comm]

/-! ### The next candidate -/

/-- How the best candidate for a block changes as its predecessors are looked at: one without a
candidate is passed over, the first one with a candidate is taken, and from later ones a walk leads
up to a block above both. -/
inductive Gathers (number : Array Nat) (idom : Array (Option Nat)) :
    List Nat → Option Nat → Option Nat → Prop
  | nil (best : Option Nat) : Gathers number idom [] best best
  | skip {p : Nat} {ps : List Nat} {best next : Option Nat} : idom.getD p none = none →
    Gathers number idom ps best next → Gathers number idom (p :: ps) best next
  | first {p : Nat} {ps : List Nat} {next : Option Nat} : Found idom p →
    Gathers number idom ps (some p) next → Gathers number idom (p :: ps) none next
  | meet {p d m : Nat} {ps : List Nat} {next : Option Nat} : Found idom p →
    Meets number idom p d m → Gathers number idom ps (some m) next →
    Gathers number idom (p :: ps) (some d) next

/-- The best candidate so far and one more predecessor. -/
def gather (number : Array Nat) (idom : Array (Option Nat)) (best : Option Nat) (p : Nat) :
    Option Nat :=
  if (idom.getD p none).isNone then best
  else
    match best with
    | none => some p
    | some d => some (meet number idom (2 * idom.size) p d)

lemma nextIdom_eq (number : Array Nat) (idom : Array (Option Nat)) (preds : List Nat) :
    nextIdom number idom preds = preds.foldl (gather number idom) none :=
  rfl

/-- The lowest block above those of some blocks that have a candidate, if any have one. -/
def Lowest (idom : Array (Option Nat)) (ps : List Nat) (best : Option Nat) : Prop :=
  (best = none ∧ ∀ p ∈ ps, ¬ Found idom p) ∨ ∃ m, best = some m ∧ Found idom m ∧
    ∀ a, Above idom a m ↔ ∀ p ∈ ps, Found idom p → Above idom a p

lemma Lowest.skip {p : Nat} {done : List Nat} {best : Option Nat} (hb : Lowest idom done best)
    (hp : idom.getD p none = none) : Lowest idom (done ++ [p]) best := by
  have hnf : ¬ Found idom p := fun ⟨d, hd⟩ => by
    rw [hp] at hd
    cases hd
  have hskip : ∀ P : Nat → Prop, (∀ q ∈ done ++ [p], Found idom q → P q) ↔
      ∀ q ∈ done, Found idom q → P q := by
    intro P
    simp only [List.forall_mem_append, List.forall_mem_singleton]
    exact and_iff_left fun hf => absurd hf hnf
  rcases hb with ⟨rfl, hnone⟩ | ⟨m, rfl, hm, habove⟩
  · exact .inl ⟨rfl, (hskip fun _ => False).2 hnone⟩
  · exact .inr ⟨m, rfl, hm, fun a => (habove a).trans (hskip _).symm⟩

lemma Lowest.first {p : Nat} {done : List Nat} (hnone : ∀ q ∈ done, ¬ Found idom q)
    (hp : Found idom p) : Lowest idom (done ++ [p]) (some p) := by
  refine .inr ⟨p, rfl, hp, fun a => ?_⟩
  simp only [List.forall_mem_append, List.forall_mem_singleton]
  exact ⟨fun ha => ⟨fun q hq hqf => absurd hqf (hnone q hq), fun _ => ha⟩, fun hall => hall.2 hp⟩

lemma Lowest.meet {p m n : Nat} {done : List Nat} (hp : Found idom p) (hn : Found idom n)
    (hdone : ∀ a, Above idom a m ↔ ∀ q ∈ done, Found idom q → Above idom a q)
    (hmeet : ∀ a, Above idom a n ↔ Above idom a p ∧ Above idom a m) :
    Lowest idom (done ++ [p]) (some n) := by
  refine .inr ⟨n, rfl, hn, fun a => ?_⟩
  simp only [List.forall_mem_append, List.forall_mem_singleton]
  rw [hmeet, hdone, and_comm]
  exact and_congr_right fun _ => ⟨fun ha _ => ha, fun ha => ha hp⟩

/-- The next candidate is the lowest block above all predecessors that have a candidate. -/
lemma Candidates.gathers_foldl (hc : Candidates g order idom) (h : g.Numbered order) (ps : List Nat)
    {done : List Nat} {best : Option Nat} (hb : Lowest idom done best) :
    Gathers (g.positions order) idom ps best (ps.foldl (gather (g.positions order) idom) best) ∧
      Lowest idom (done ++ ps) (ps.foldl (gather (g.positions order) idom) best) := by
  induction ps generalizing done best with
  | nil => exact ⟨.nil best, by simpa using hb⟩
  | cons p ps ih =>
    rw [List.foldl_cons, List.append_cons]
    cases hp : idom.getD p none with
    | none =>
      have hgather : gather (g.positions order) idom best p = best := by simp [gather, hp]
      rw [hgather]
      exact (ih (hb.skip hp)).imp_left (.skip hp)
    | some e =>
      have hpf : Found idom p := ⟨e, hp⟩
      rcases hb with ⟨rfl, hnone⟩ | ⟨m, rfl, hm, habove⟩
      · have hgather : gather (g.positions order) idom none p = some p := by simp [gather, hp]
        rw [hgather]
        exact (ih (.first hnone hpf)).imp_left (.first hpf)
      · have hgather : gather (g.positions order) idom (some m) p =
            some (Graph.meet (g.positions order) idom (2 * idom.size) p m) := by simp [gather, hp]
        have hpl := List.idxOf_lt_length_iff.2 (hc.mem h hpf)
        have hml := List.idxOf_lt_length_iff.2 (hc.mem h hm)
        have hlen := h.length_le
        have hsize := hc.size
        obtain ⟨hmeets, hmeet⟩ := hc.meets_meet h hpf hm (show _ ≤ 2 * idom.size by omega)
        rw [hgather]
        exact (ih (.meet hpf (hc.found_of_above hpf ((hmeet _).1 (.refl ..)).1) habove hmeet)).imp_left
          (.meet hpf hmeets)

end Dynarec.Flow.Graph
