import Dynarec.Proofs.Flow.Structurize
import Mathlib.Algebra.Group.Action.Defs
import Mathlib.Algebra.GroupWithZero.Nat

/-!
# Merging chains

`Graph.coalesce` lets a block absorb the target of its only exit when nothing else leads there. For a
visitor that runs a joined body as its two parts one after the other, runs end as before: a block
that has absorbed another one does at once what the two did in turn. `Merged` is what holds of a
graph after some blocks have been absorbed.
-/

namespace Dynarec.Flow.Graph

open Relation (ReflTransGen)

variable {B C ε σ : Type} {g g₀ : Graph B C} {v : Shape.Visitor B C ε σ} {join : B → B → B}
  {a b n d : Nat}

/-- A visitor runs a joined body as its two parts, the second one if the first does not return. -/
def Joins (v : Shape.Visitor B C ε σ) (join : B → B → B) : Prop :=
  ∀ x y, v.body (join x y) = do
    match ← v.body x with
    | some value => return some value
    | none => v.body y

/-- A block has been absorbed by another one. -/
def Absorbed (g : Graph B C) (n : Nat) : Prop := ∃ blk, g.blocks[n]? = some blk ∧ blk.absorbed = true

/-- The blocks that have a body are those that have not been absorbed. -/
def Bodied (g : Graph B C) : Prop :=
  ∀ (n : Nat) (blk : Block B C), g.blocks[n]? = some blk → (blk.body = none ↔ blk.absorbed = true)

/-- What a block absorbs: the target of its only exit, to which nothing else leads. -/
structure Absorbs (g : Graph B C) (a b : Nat) : Prop where
  exit : ∃ e : Exit C, g.exits a = [e] ∧ e.test = none ∧ e.target = b
  ne : b ≠ a
  entry : b ≠ g.entry
  reached : g.Leads g.entry a
  only : ∀ u, g.Leads g.entry u → g.Edge u b → u = a
  kept : ¬ g.Absorbed a
  target : ¬ g.Absorbed b

/-! ### One step -/

lemma size_absorb (join : B → B → B) (g : Graph B C) (a b : Nat) :
    (g.absorb join a b).blocks.size = g.blocks.size := by
  unfold absorb
  split <;> simp

lemma entry_absorb (join : B → B → B) (g : Graph B C) (a b : Nat) :
    (g.absorb join a b).entry = g.entry := by
  unfold absorb
  split <;> rfl

/-- The blocks after one has absorbed another. -/
lemma getElem?_absorb {src : Block B C} (hb : g.blocks[b]? = some src) (hne : b ≠ a) (n : Nat) :
    (g.absorb join a b).blocks[n]? =
      if n = b then some ⟨none, [], true⟩
      else if n = a then g.blocks[a]?.map fun dst =>
        { dst with
          body := match dst.body, src.body with
            | some x, some y => some (join x y)
            | body, _ => body
          exits := src.exits }
      else g.blocks[n]? := by
  have hlt : b < g.blocks.size := (Array.getElem?_eq_some_iff.1 hb).1
  simp only [absorb, hb, Array.getElem?_modify, Array.getElem?_setIfInBounds]
  by_cases hnb : n = b
  · subst hnb
    simp [hlt, hne.symm]
  · by_cases hna : n = a
    · subst hna
      rw [if_pos rfl, if_neg hnb]
      exact (congrArg (Option.map _) (if_neg (Ne.symm hnb))).trans (if_pos rfl).symm
    · simp only [if_neg (Ne.symm hna), if_neg (Ne.symm hnb), if_neg hnb, if_neg hna]

lemma plain_absorb (hne : b ≠ a) (hplain : g.Plain) : (g.absorb join a b).Plain := by
  intro n e he
  cases hb : g.blocks[b]? with
  | none =>
    rw [absorb, hb] at he
    exact hplain n e he
  | some src =>
    rw [exits, getElem?_absorb hb hne] at he
    split at he
    · next blk hblk =>
      split at hblk
      · cases hblk
        cases he
      · split at hblk
        · obtain ⟨dst, _, rfl⟩ := Option.map_eq_some_iff.1 hblk
          exact hplain b e (by rw [exits, hb]; exact he)
        · exact hplain n e (by rw [exits, hblk]; exact he)
    · cases he

lemma bodied_absorb (hne : b ≠ a) (hbodied : g.Bodied) : (g.absorb join a b).Bodied := by
  intro n blk hblk
  cases hb : g.blocks[b]? with
  | none =>
    rw [absorb, hb] at hblk
    exact hbodied n blk hblk
  | some src =>
    rw [getElem?_absorb hb hne] at hblk
    split at hblk
    · cases hblk
      simp
    · split at hblk
      · obtain ⟨dst, ha, rfl⟩ := Option.map_eq_some_iff.1 hblk
        have hdst := hbodied a dst ha
        rw [← hdst]
        cases dst.body <;> cases src.body <;> simp
      · exact hbodied n blk hblk

namespace Absorbs

variable (h : g.Absorbs a b)
include h

lemma edge : g.Edge a b := by
  obtain ⟨e, he, _, rfl⟩ := h.exit
  exact edge_of_mem (he ▸ List.mem_cons_self)

lemma eq_of_edge (he : g.Edge a n) : n = b := by
  obtain ⟨e, hex, _, rfl⟩ := h.exit
  obtain ⟨e', he', rfl⟩ := List.mem_map.1 he
  rw [hex] at he'
  rw [List.mem_singleton.1 he']

lemma exists_block (hg : g.InRange) : ∃ src, g.blocks[b]? = some src :=
  ⟨_, Array.getElem?_eq_getElem (hg.target h.edge)⟩

lemma exits_absorb (hg : g.InRange) (join : B → B → B) (n : Nat) :
    (g.absorb join a b).exits n =
      if n = b then [] else if n = a then g.exits b else g.exits n := by
  obtain ⟨src, hb⟩ := h.exists_block hg
  rw [exits, getElem?_absorb hb h.ne]
  by_cases hnb : n = b
  · simp [hnb]
  · by_cases hna : n = a
    · subst hna
      rw [if_neg hnb, if_pos rfl, if_neg hnb, if_pos rfl, exits, hb,
        Array.getElem?_eq_getElem h.edge.lt]
      rfl
    · rw [if_neg hnb, if_neg hna, if_neg hnb, if_neg hna, exits]

lemma edge_absorb (hg : g.InRange) (join : B → B → B) {u w : Nat} :
    (g.absorb join a b).Edge u w ↔ u ≠ b ∧ (u = a ∧ g.Edge b w ∨ u ≠ a ∧ g.Edge u w) := by
  rw [Edge, targets, h.exits_absorb hg join]
  by_cases hub : u = b
  · simp [hub]
  · by_cases hua : u = a
    · subst hua
      simp [hub, Edge, targets]
    · simp [hub, hua, Edge, targets]

/-- The absorbed block is not reached any more, and every other one still is. -/
lemma leads_absorb (hg : g.InRange) (join : B → B → B) :
    (g.absorb join a b).Leads g.entry n ↔ g.Leads g.entry n ∧ n ≠ b := by
  have hbb : ¬ g.Edge b b := fun he => h.ne (h.only b (h.reached.tail h.edge) he)
  constructor
  · intro hn
    induction hn with
    | refl => exact ⟨.refl, h.entry.symm⟩
    | @tail u w _ he ih =>
      rcases (h.edge_absorb hg join).1 he with ⟨hub, ⟨hua, hbw⟩ | ⟨hua, huw⟩⟩
      · refine ⟨((hua ▸ ih.1).tail h.edge).tail hbw, ?_⟩
        rintro rfl
        exact hbb hbw
      · refine ⟨ih.1.tail huw, ?_⟩
        rintro rfl
        exact hua (h.only u ih.1 huw)
  · rintro ⟨hn, hnb⟩
    have key : (n ≠ b → (g.absorb join a b).Leads g.entry n) ∧
        (n = b → (g.absorb join a b).Leads g.entry a) := by
      clear hnb
      induction hn with
      | refl => exact ⟨fun _ => .refl, fun hb => absurd hb.symm h.entry⟩
      | @tail u w hu he ih =>
        refine ⟨fun hw => ?_, ?_⟩
        · by_cases hub : u = b
          · exact (ih.2 hub).tail ((h.edge_absorb hg join).2 ⟨h.ne.symm, .inl ⟨rfl, hub ▸ he⟩⟩)
          · by_cases hua : u = a
            · subst hua
              exact absurd (h.eq_of_edge he) hw
            · exact (ih.1 hub).tail ((h.edge_absorb hg join).2 ⟨hub, .inr ⟨hua, he⟩⟩)
        · rintro rfl
          obtain rfl := h.only u hu he
          exact ih.1 h.ne.symm
    exact key.1 hnb

lemma live_absorb (hg : g.InRange) (join : B → B → B) :
    (g.absorb join a b).Live = contract a b g.Live := by
  funext u w
  rw [eq_iff_iff, Live, entry_absorb, h.leads_absorb hg, h.edge_absorb hg, contract, Live]
  by_cases hua : u = a
  · subst hua
    have hb : g.Leads g.entry b := h.reached.tail h.edge
    simp [source_self, h.reached, hb]
  · rw [source_of_ne hua]
    simp only [hua, false_and, false_or]
    tauto

lemma sole : Sole g.Live g.entry a b where
  edge := ⟨h.reached, h.edge⟩
  ne := h.ne
  root := h.entry
  out he := h.eq_of_edge he.2
  into he := h.only _ he.1 he.2

lemma inRange_absorb (hg : g.InRange) (join : B → B → B) : (g.absorb join a b).InRange where
  entry := by
    rw [size_absorb, entry_absorb]
    exact hg.entry
  target he := by
    rw [size_absorb]
    rcases (h.edge_absorb hg join).1 he with ⟨_, ⟨_, he⟩ | ⟨_, he⟩⟩ <;> exact hg.target he

lemma absorbed_absorb (hg : g.InRange) (join : B → B → B) :
    (g.absorb join a b).Absorbed n ↔ n = b ∨ g.Absorbed n := by
  obtain ⟨src, hb⟩ := h.exists_block hg
  rw [Absorbed, getElem?_absorb hb h.ne]
  by_cases hnb : n = b
  · simp [hnb]
  · by_cases hna : n = a
    · subst hna
      rw [if_neg hnb, if_pos rfl, Absorbed, Array.getElem?_eq_getElem h.edge.lt]
      simp [hnb]
    · simp [hnb, hna, Absorbed]

/-- The body of a block that has absorbed another one runs as the two bodies. -/
lemma runBody_absorb (hg : g.InRange) (hbodied : g.Bodied) (hjoin : Joins v join) :
    (g.absorb join a b).runBody v a = (do
      match ← g.runBody v a with
      | some value => return some value
      | none => g.runBody v b) := by
  obtain ⟨src, hb⟩ := h.exists_block hg
  obtain ⟨dst, ha⟩ : ∃ dst, g.blocks[a]? = some dst :=
    ⟨_, Array.getElem?_eq_getElem h.edge.lt⟩
  have hdst : dst.body ≠ none := fun hn => h.kept ⟨dst, ha, (hbodied a dst ha).1 hn⟩
  have hsrc : src.body ≠ none := fun hn => h.target ⟨src, hb, (hbodied b src hb).1 hn⟩
  obtain ⟨x, hx⟩ := Option.ne_none_iff_exists'.1 hdst
  obtain ⟨y, hy⟩ := Option.ne_none_iff_exists'.1 hsrc
  obtain ⟨_, _, _⟩ := dst
  obtain ⟨_, _, _⟩ := src
  simp only at hx hy
  subst hx hy
  simp only [runBody, getElem?_absorb hb h.ne, h.ne.symm, if_false, if_true, ha, hb,
    Option.map_some]
  exact hjoin x y

lemma runBody_absorb_of_ne (hg : g.InRange) (join : B → B → B) (hnb : n ≠ b) (hna : n ≠ a) :
    (g.absorb join a b).runBody v n = g.runBody v n := by
  obtain ⟨src, hb⟩ := h.exists_block hg
  simp only [runBody, getElem?_absorb hb h.ne, if_neg hnb, if_neg hna]

/-- What choosing an exit does after a block has absorbed another one. -/
lemma pick_absorb (hg : g.InRange) (hbodied : g.Bodied) (hjoin : Joins v join) (s : σ) :
    (g.absorb join a b).pick v a d s = match g.runBody v a s with
      | .ok (some value) s' => .ok (.inl value) s'
      | .ok none s' => g.pick v b d s'
      | .error e s' => .error e s' := by
  rw [pick, h.runBody_absorb hg hbodied hjoin, bind_assoc, h.exits_absorb hg, if_neg h.ne.symm,
    if_pos rfl]
  cases hbody : g.runBody v a s with
  | error e s₁ => rw [EStateM.bind_error hbody]
  | ok r s₁ =>
    rw [EStateM.bind_ok hbody]
    cases r <;> rfl

/-- Before, the block has gone on to the one that it absorbs. -/
lemma pick_source (hplain : g.Plain) (s : σ) :
    ∃ e : Exit C, e.target = b ∧ e.dispatch = none ∧
      g.pick v a d s = match g.runBody v a s with
        | .ok (some value) s' => .ok (.inl value) s'
        | .ok none s' => .ok (.inr (some e)) s'
        | .error e s' => .error e s' := by
  obtain ⟨e, hexit, htest, htarget⟩ := h.exit
  refine ⟨e, htarget, (hplain a e (hexit ▸ List.mem_cons_self)).1, ?_⟩
  rw [pick, hexit]
  cases hbody : g.runBody v a s with
  | error e s₁ => rw [EStateM.bind_error hbody]
  | ok r s₁ =>
    rw [EStateM.bind_ok hbody]
    cases r with
    | some x => rfl
    | none =>
      simp only [takeExit, htest]
      rfl

lemma pick_absorb_of_ne (hg : g.InRange) (join : B → B → B) (hnb : n ≠ b) (hna : n ≠ a) :
    (g.absorb join a b).pick v n d = g.pick v n d := by
  simp only [pick, h.runBody_absorb_of_ne hg join hnb hna, h.exits_absorb hg join, if_neg hnb,
    if_neg hna]

omit h in
/-- The jumps charged before a block has absorbed another one. -/
def ticksApart (a b : Nat) (ticks : Nat → Nat → Nat) (n t : Nat) : Nat :=
  if n = a then 0 else if n = b then ticks a t else ticks n t

/-- Going to the absorbed block was never charged, and its own exits are charged as before. -/
lemma charges_absorb (hg : g.InRange) (join : B → B → B) {t : Nat} (he : g.Edge n t) :
    ticksApart a b (g.absorb join a b).charges n t = g.charges n t := by
  have hback : ∀ u, Back (g.absorb join a b).Live (g.absorb join a b).entry u t ↔
      u ≠ b ∧ Back g.Live g.entry (source a b u) t := by
    intro u
    rw [entry_absorb, h.live_absorb hg, h.sole.back_contract]
    rfl
  unfold ticksApart
  by_cases hna : n = a
  · subst hna
    obtain rfl := h.eq_of_edge he
    rw [if_pos rfl, charges_eq_zero h.sole.not_back]
  · rw [if_neg hna]
    by_cases hnb : n = b
    · rw [if_pos hnb]
      apply charges_congr
      rw [hback, source_self, hnb]
      exact and_iff_right h.ne.symm
    · rw [if_neg hnb]
      apply charges_congr
      rw [hback, source_of_ne hna]
      exact and_iff_right hnb

/-- A run of the old graph is one of the new graph; at the absorbed block, it is one of the new graph
from before the body of the block that has absorbed it. -/
lemma ends_absorb_of_ends (hg : g.InRange) (hplain : g.Plain) (hbodied : g.Bodied)
    (hjoin : Joins v join) {ticks : Nat → Nat → Nat} {s : σ}
    {r : EStateM.Result (Halt ε) σ (Option UInt64)}
    (he : g.Ends v (ticksApart a b ticks) n d s r) (hn : g.Leads g.entry n) :
    (n ≠ b → (g.absorb join a b).Ends v ticks n d s r) ∧
      (n = b → ∀ s₀, g.runBody v a s₀ = .ok none s →
        (g.absorb join a b).Ends v ticks a d s₀ r) := by
  revert hn
  refine Ends.induct he fun n d s hc hn => ⟨fun hnb => ?_, fun hnb s₀ hs₀ => ?_⟩
  · by_cases hna : n = a
    · subst hna
      obtain ⟨e, hb, hd, hp⟩ := h.pick_source (v := v) (d := d) hplain s
      have hedge : g.Leads g.entry e.target := hb ▸ hn.tail h.edge
      rw [hp] at hc
      cases hbody : g.runBody v n s with
      | error e s₁ =>
        rw [hbody] at hc
        rw [ends_iff_continues, h.pick_absorb hg hbodied hjoin, hbody]
        cases e <;> exact hc
      | ok value s₁ =>
        rw [hbody] at hc
        cases value with
        | some value =>
          rw [ends_iff_continues, h.pick_absorb hg hbodied hjoin, hbody]
          exact hc
        | none =>
          -- the absorbed block is gone on with, from before this body
          simp only [Continues, ticksApart, if_true, crosses_zero, hd, Option.getD_none] at hc
          exact (hc.2 hedge).2 hb s hbody
    · rw [ends_iff_continues, h.pick_absorb_of_ne hg join hnb hna]
      refine hc.mono (fun x _ _ => by rw [ticksApart, if_neg hna, if_neg hnb])
        fun x _ hp _ hgo => ?_
      have hx := edge_of_mem (mem_of_pick hp)
      exact (hgo.2 (hn.tail hx)).1 fun hxb => hna (h.only n hn (hxb ▸ hx))
  · subst hnb
    have hpb : (g.absorb join a n).pick v a d s₀ = g.pick v n d s := by
      rw [h.pick_absorb hg hbodied hjoin, hs₀]
    rw [ends_iff_continues, hpb]
    refine hc.mono (fun x _ _ => by rw [ticksApart, if_neg h.ne, if_pos rfl])
      fun x _ hp _ hgo => ?_
    have hx := edge_of_mem (mem_of_pick hp)
    exact (hgo.2 (hn.tail hx)).1 fun hxb => h.ne (h.only n hn (hxb ▸ hx))

/-- A run of the new graph is one of the old graph. -/
lemma ends_of_ends_absorb (hg : g.InRange) (hplain : g.Plain) (hbodied : g.Bodied)
    (hjoin : Joins v join) {ticks : Nat → Nat → Nat} {s : σ}
    {r : EStateM.Result (Halt ε) σ (Option UInt64)}
    (he : (g.absorb join a b).Ends v ticks n d s r)
    (hn : (g.absorb join a b).Leads g.entry n) : g.Ends v (ticksApart a b ticks) n d s r := by
  revert hn
  refine Ends.induct he fun n d s hc hn => ?_
  have hc := hc.mono (fun _ _ _ => rfl)
    fun x _ hp _ hgo => hgo.2 (hn.tail (edge_of_mem (mem_of_pick hp)))
  by_cases hna : n = a
  · subst hna
    obtain ⟨e, hb, hd, hp⟩ := h.pick_source (v := v) (d := d) hplain s
    rw [h.pick_absorb hg hbodied hjoin] at hc
    rw [ends_iff_continues, hp]
    cases hbody : g.runBody v n s with
    | error e s₁ =>
      rw [hbody] at hc
      cases e <;> exact hc
    | ok value s₁ =>
      rw [hbody] at hc
      cases value with
      | some value => exact hc
      | none =>
        -- what the block does after its own body is done by the block that it has absorbed
        simp only [Continues, ticksApart, if_true, crosses_zero, hb, hd, Option.getD_none]
        rw [ends_iff_continues]
        exact hc.mono (fun x _ _ => by rw [ticksApart, if_neg h.ne, if_pos rfl]) fun _ _ _ _ he => he
  · have hnb := ((h.leads_absorb hg join).1 hn).2
    rw [h.pick_absorb_of_ne hg join hnb hna] at hc
    rw [ends_iff_continues]
    exact hc.mono (fun x _ _ => by rw [ticksApart, if_neg hna, if_neg hnb]) fun _ _ _ _ he => he

/-- The runs from the entry are as before, when what was charged for the jump between the two blocks
was nothing. -/
lemma ends_iff_absorb (hg : g.InRange) (hplain : g.Plain) (hbodied : g.Bodied)
    (hjoin : Joins v join) {d : Nat} {s : σ}
    {r : EStateM.Result (Halt ε) σ (Option UInt64)} :
    g.Ends v g.charges g.entry d s r ↔
      (g.absorb join a b).Ends v (g.absorb join a b).charges g.entry d s r := by
  have hcharges : g.Ends v g.charges g.entry d s r ↔
      g.Ends v (ticksApart a b (g.absorb join a b).charges) g.entry d s r :=
    ends_congr (P := fun _ => True) (fun _ _ _ _ => rfl) (fun _ _ _ _ => trivial)
      (fun n _ e he => h.charges_absorb hg join (edge_of_mem he)) trivial
  rw [hcharges]
  exact ⟨fun he => (h.ends_absorb_of_ends hg hplain hbodied hjoin he .refl).1 h.entry.symm,
    fun he => h.ends_of_ends_absorb hg hplain hbodied hjoin he .refl⟩

/-- A block that has absorbed the last one of a path returns where that one did. -/
lemma returns_absorb (hg : g.InRange) (hbodied : g.Bodied) (hjoin : Joins v join)
    (hret : g.Returns v) : (g.absorb join a b).Returns v := by
  intro n hn hex s s'
  rw [entry_absorb, h.leads_absorb hg] at hn
  rw [h.exits_absorb hg, if_neg hn.2] at hex
  by_cases hna : n = a
  · subst hna
    rw [if_pos rfl] at hex
    rw [h.runBody_absorb hg hbodied hjoin]
    cases hbody : g.runBody v n s with
    | error e s₁ => rw [EStateM.bind_error hbody]; simp
    | ok r s₁ =>
      rw [EStateM.bind_ok hbody]
      cases r with
      | some x => exact fun hc => by cases hc
      | none => exact hret b (h.reached.tail h.edge) hex s₁ s'
  · rw [if_neg hna] at hex
    rw [h.runBody_absorb_of_ne hg join hn.2 hna]
    exact hret n hn.1 hex s s'

end Absorbs

/-! ### Any number of steps -/

/-- What holds of a graph after some blocks have absorbed others, where `counts` are the numbers of
exits to each block at the start. -/
structure Merged (join : B → B → B) (g₀ g : Graph B C) (counts : Array Nat) : Prop where
  inRange : g.InRange
  plain : g.Plain
  bodied : g.Bodied
  complete : ∀ n, g.exits n = [] ∨ Complete (g.exits n)
  entry : g.entry = g₀.entry
  live : ∀ n, g₀.Leads g₀.entry n → g.Absorbed n ∨ g.Leads g.entry n
  unique : ∀ t, counts.getD t 0 = 1 → ∀ u u', g.Leads g.entry u → g.Leads g.entry u' →
    g.Edge u t → g.Edge u' t → u = u'
  returns : ∀ {ε σ : Type} (v : Shape.Visitor B C ε σ), Joins v join → g₀.Returns v → g.Returns v
  ends : ∀ {ε σ : Type} (v : Shape.Visitor B C ε σ), Joins v join → ∀ d s r,
    g₀.Ends v g₀.charges g₀.entry d s r ↔ g.Ends v g.charges g.entry d s r

/-- One more block has been absorbed. -/
lemma Merged.absorb {counts : Array Nat} (h : Merged join g₀ g counts) (ha : g.Absorbs a b) :
    Merged join g₀ (g.absorb join a b) counts where
  inRange := ha.inRange_absorb h.inRange join
  plain := plain_absorb ha.ne h.plain
  bodied := bodied_absorb ha.ne h.bodied
  complete n := by
    rw [ha.exits_absorb h.inRange]
    split
    · exact .inl rfl
    · split
      · exact h.complete b
      · exact h.complete n
  entry := (entry_absorb join g a b).trans h.entry
  live n hn := by
    rw [ha.absorbed_absorb h.inRange, entry_absorb, ha.leads_absorb h.inRange]
    rcases h.live n hn with hn | hn
    · exact .inl (.inr hn)
    · by_cases hnb : n = b
      · exact .inl (.inl hnb)
      · exact .inr ⟨hn, hnb⟩
  unique t ht u u' hu hu' he he' := by
    rw [entry_absorb, ha.leads_absorb h.inRange] at hu hu'
    have hb : g.Leads g.entry b := ha.reached.tail ha.edge
    rcases (ha.edge_absorb h.inRange join).1 he with ⟨_, ⟨hua, he⟩ | ⟨hua, he⟩⟩ <;>
      rcases (ha.edge_absorb h.inRange join).1 he' with ⟨_, ⟨hua', he'⟩ | ⟨hua', he'⟩⟩
    · exact hua.trans hua'.symm
    · exact absurd (h.unique t ht b u' hb hu'.1 he he').symm hu'.2
    · exact absurd (h.unique t ht u b hu.1 hb he he') hu.2
    · exact h.unique t ht u u' hu.1 hu'.1 he he'
  returns v hjoin hret := ha.returns_absorb h.inRange h.bodied hjoin (h.returns v hjoin hret)
  ends v hjoin d s r := by
    rw [h.ends v hjoin, entry_absorb]
    exact ha.ends_iff_absorb h.inRange h.plain h.bodied hjoin

/-- How many exits of reachable blocks lead to a block. -/
lemma getD_incoming (hn : n < g.blocks.size) : g.incoming.getD n 0 =
    ((List.range g.blocks.size).map fun u =>
      if g.reachable.getD u false then (g.targets u).count n else 0).sum := by
  have houter : ∀ (vs : List Nat) (counts : Array Nat), n < counts.size →
      (vs.foldl (fun counts u =>
        if g.reachable.getD u false then
          (g.targets u).foldl (fun counts w => counts.modify w (· + 1)) counts
        else counts) counts).getD n 0 = counts.getD n 0 + (vs.map fun u =>
          if g.reachable.getD u false then (g.targets u).count n else 0).sum := by
    intro vs
    induction vs with
    | nil => simp
    | cons u vs ih =>
      intro counts hc
      rw [List.foldl_cons, List.map_cons, List.sum_cons]
      cases hu : g.reachable.getD u false with
      | true =>
        simp only [if_true]
        rw [ih _ (by rwa [size_foldl_modify]), getD_foldl_modify _ _ _ hc, add_right_iterate,
          smul_eq_mul, Nat.mul_one, Nat.add_assoc]
      | false =>
        simp only [Bool.false_eq_true, if_false]
        rw [ih _ hc]
        omega
  rw [incoming, houter _ _ (by simpa using hn), getD_replicate, Nat.zero_add]

/-- A block to which one exit leads is reached from one block. -/
lemma eq_of_incoming (hg : g.InRange) {t u u' : Nat} (ht : g.incoming.getD t 0 = 1)
    (hu : g.Leads g.entry u) (hu' : g.Leads g.entry u') (he : g.Edge u t) (he' : g.Edge u' t) :
    u = u' := by
  by_contra hne
  rw [getD_incoming (hg.target he)] at ht
  obtain ⟨pre, post, hsplit⟩ := List.append_of_mem (List.mem_range.2 he.lt)
  have hone : ∀ x, g.Leads g.entry x → g.Edge x t →
      1 ≤ if g.reachable.getD x false then (g.targets x).count t else 0 := by
    intro x hx hxt
    rw [if_pos ((reachable_iff hg).2 hx)]
    exact List.count_pos_iff.2 hxt
  have hmem : u' ∈ pre ∨ u' ∈ post := by
    have := List.mem_range.2 he'.lt
    rw [hsplit] at this
    rcases List.mem_append.1 this with hm | hm
    · exact .inl hm
    · exact .inr ((List.mem_cons.1 hm).resolve_left (Ne.symm hne))
  have hle : ∀ l : List Nat, u' ∈ l → 1 ≤ (l.map fun x =>
      if g.reachable.getD x false then (g.targets x).count t else 0).sum := by
    intro l hl
    obtain ⟨l₁, l₂, rfl⟩ := List.append_of_mem hl
    have := hone u' hu' he'
    rw [List.map_append, List.sum_append, List.map_cons, List.sum_cons]
    omega
  have := hone u hu he
  rw [hsplit, List.map_append, List.sum_append, List.map_cons, List.sum_cons] at ht
  rcases hmem with hm | hm
  · have := hle pre hm
    omega
  · have := hle post hm
    omega

/-- What may be absorbed is a block that nothing else leads to. -/
lemma absorbs_of_absorbable {counts : Array Nat} (h : Merged join g₀ g counts)
    (ha : g.Leads g.entry a) (hkept : ¬ g.Absorbed a) (hb : g.absorbable? counts a = some b) :
    g.Absorbs a b := by
  unfold absorbable? at hb
  split at hb
  · next only hex =>
    simp only at hb
    split at hb
    · cases hb
    · next hc =>
      cases hb
      simp only [Bool.or_eq_true, not_or, beq_iff_eq, bne_iff_ne, ne_eq, not_not] at hc
      obtain ⟨⟨⟨⟨htest, hne⟩, hentry⟩, hcount⟩, habsorbed⟩ := hc
      have he : g.Edge a only.target := edge_of_mem (hex ▸ List.mem_cons_self)
      refine ⟨⟨only, hex, by simpa using htest, rfl⟩, hne, hentry, ha, fun u hu hue =>
        h.unique _ hcount u a hu ha hue he, hkept, ?_⟩
      rintro ⟨blk, hblk, habs⟩
      simp [hblk, habs] at habsorbed
  · cases hb

/-- A block absorbs as long as it can. -/
lemma Merged.absorbChain {counts : Array Nat} (h : Merged join g₀ g counts) (fuel : Nat)
    (ha : g.Leads g.entry a) (hkept : ¬ g.Absorbed a) :
    Merged join g₀ (absorbChain join counts fuel g a) counts := by
  induction fuel generalizing g with
  | zero => exact h
  | succ fuel ih =>
    rw [Graph.absorbChain]
    split
    · next b hb =>
      have hab := absorbs_of_absorbable h ha hkept hb
      refine ih (h.absorb hab) ?_ ?_
      · rw [entry_absorb, hab.leads_absorb h.inRange]
        exact ⟨ha, hab.ne.symm⟩
      · rw [hab.absorbed_absorb h.inRange, not_or]
        exact ⟨hab.ne.symm, hkept⟩
    · exact h

/-- Merging chains changes neither what is valid nor how runs end. -/
theorem merged_coalesce (hg : g.InRange) (hplain : g.Plain) (hbodied : g.Bodied)
    (hcomplete : ∀ n, g.exits n = [] ∨ Complete (g.exits n)) (join : B → B → B) :
    Merged join g (g.coalesce join) g.incoming := by
  have hstart : Merged join g g g.incoming :=
    ⟨hg, hplain, hbodied, hcomplete, rfl, fun _ hn => .inr hn,
      fun _ ht _ _ hu hu' he he' => eq_of_incoming hg ht hu hu' he he', fun _ _ h => h,
      fun _ _ _ _ _ => Iff.rfl⟩
  have hfold : ∀ (as : List Nat) (g' : Graph B C), Merged join g g' g.incoming →
      Merged join g (as.foldl (fun g' a =>
        if g.reachable.getD a false && !(g'.blocks[a]?.map (·.absorbed)).getD true then
          Graph.absorbChain join g.incoming g'.blocks.size g' a
        else g') g') g.incoming := by
    intro as
    induction as with
    | nil => exact fun _ h => h
    | cons a as ih =>
      intro g' h
      rw [List.foldl_cons]
      refine ih _ ?_
      split
      · next hc =>
        rw [Bool.and_eq_true, reachable_iff hg] at hc
        have hkept : ¬ g'.Absorbed a := by
          rintro ⟨blk, hblk, habs⟩
          simp [hblk, habs] at hc
        exact h.absorbChain _ ((h.live a hc.1).resolve_left hkept) hkept
      · exact h
  exact hfold (List.range g.blocks.size) g hstart

/-- After chains have been merged the structured form still does what running the graph does, with a
charge for every exit that leads back in the graph before. -/
theorem coalesce_ends (hval : g.validate = .ok ()) (hplain : g.Plain) (hbodied : g.Bodied)
    (join : B → B → B) :
    ∃ x, (g.coalesce join).structurize = .ok x ∧ ∀ {ε σ : Type} (v : Shape.Visitor B C ε σ),
      Joins v join → g.Returns v →
        ∀ s r, Run.Finishes (x.walk v ·) s r ↔ g.Ends v g.charges g.entry 0 s r := by
  obtain ⟨hg, hcomplete⟩ := validate_eq_ok hval
  have hm := merged_coalesce hg hplain hbodied hcomplete join
  obtain ⟨x, hx, hends⟩ := structurize_ends (validate_of_complete hm.inRange hm.complete) hm.plain
  refine ⟨x, hx, fun v hjoin hret s r => ?_⟩
  rw [hends v (hm.returns v hjoin hret), hm.ends v hjoin]

end Dynarec.Flow.Graph
