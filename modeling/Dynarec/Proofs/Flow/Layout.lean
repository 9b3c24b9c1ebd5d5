import Dynarec.Flow.Placement
import Dynarec.Proofs.Flow.Classify
import Dynarec.Proofs.Flow.Placed

/-!
# Placing succeeds

Along right facts about dominance every block finds the labels it jumps to and is placed once. A
block is placed inside the loops that exits of the blocks it dominates lead back to and inside the
block constructs for the merges outside of what it dominates; `Framed` says so. A block that is no
merge stands where its only forward exit is, which is in the block that immediately dominates it.
-/

namespace Dynarec.Flow

variable {B C : Type}

/-- A step of placing goes on with what the first part gives. -/
lemma PlaceM.bind_ok {α β : Type} {x : PlaceM α} {f : α → PlaceM β} {st st' : Placing} {a : α}
    (h : x st = .ok (a, st')) : (x >>= f) st = f a st' := by
  change (x st >>= fun p => f p.1 p.2) = _
  rw [h]
  rfl

namespace Graph

variable {g : Graph B C} {order : List Nat} {d : Dominance} {v c t : Nat}

/-- A label for a target is found among the constructs around a place. -/
def Labelled (frames : List Frame) (t : Nat) (kind : FrameKind) : Prop :=
  ∃ f ∈ frames, f.target = t ∧ f.kind = kind

lemma jump_of_labelled {frames : List Frame} {kind : FrameKind} (h : Labelled frames t kind)
    (n : Nat) (st : Placing) :
    ∃ x : Shape B C, jump frames n t kind st = .ok (x, st) := by
  obtain ⟨f, hf, ht, hk⟩ := h
  unfold jump
  cases hfind : frames.find? fun f => f.target == t && f.kind == kind with
  | none =>
    have := List.find?_eq_none.1 hfind f hf
    simp [ht, hk] at this
  | some f' => exact ⟨_, rfl⟩

/-- The labels that exits from blocks dominated by a block lead to: loops whose heads are not
`inside`, and merges that the block does not dominate. -/
structure Framed (g : Graph B C) (order : List Nat) (frames : List Frame) (inside : Nat → Prop)
    (v : Nat) : Prop where
  loop : ∀ x ∈ order, g.Dom v x → ∀ h, g.Edge x h → order.idxOf h ≤ order.idxOf x →
    inside h ∨ Labelled frames h .loop
  block : ∀ x ∈ order, g.Dom v x → ∀ t, g.Edge x t → order.idxOf x < order.idxOf t →
    ¬ g.Dom v t → Labelled frames t .block

lemma Labelled.cons {frames : List Frame} {kind : FrameKind} (hl : Labelled frames t kind)
    (f : Frame) : Labelled (f :: frames) t kind :=
  hl.imp fun _ hg => ⟨List.mem_cons_of_mem _ hg.1, hg.2⟩

/-- One more label around a block. -/
lemma Framed.cons {frames : List Frame} {inside : Nat → Prop}
    (hf : Framed g order frames inside v) (f : Frame) : Framed g order (f :: frames) inside v where
  loop x hx hvx k he hle := (hf.loop x hx hvx k he hle).imp_right (·.cons f)
  block x hx hvx t he hlt hvt := (hf.block x hx hvx t he hlt hvt).cons f

/-- A way of placing blocks that places a block, if the labels are there and nothing that the block
dominates has been placed. -/
def Places (g : Graph B C) (order : List Nat) (place : List Frame → Nat → PlaceM (Shape B C))
    (v : Nat) : Prop :=
  ∀ frames st, Framed g order frames (g.Dom v) v →
    (∀ x ∈ order, g.Dom v x → st.placed.getD x true = false) →
    ∃ s st', place frames v st = .ok (s, st') ∧
      ∀ x, ¬ g.Dom v x → st'.placed.getD x true = st.placed.getD x true

namespace Laid

variable (h : g.Laid order) (hs : Sound g order d)
include h

/-- The children of a block dominate different blocks. -/
lemma children_apart {c' x : Nat} (hc : g.IsIdom v c) (hc' : g.IsIdom v c') (hne : c ≠ c')
    (hco : c ∈ order) (hco' : c' ∈ order) (hx : x ∈ order) (hcx : g.Dom c x) :
    ¬ g.Dom c' x := by
  intro hcx'
  rcases Dom.total ((h.ordered.mem x).1 hx) hcx hcx' with hcc | hcc
  · exact hc.dom.2 (h.dom_antisymm hco hc.dom.1 ((hc' c).2 ⟨hcc, hne⟩))
  · exact hc'.dom.2 (h.dom_antisymm hco' hc'.dom.1 ((hc c').2 ⟨hcc, hne.symm⟩))

omit h in
include hs in
/-- A block that is no merge has a single forward exit. -/
lemma single_exit (ht : t ∈ order) (hm : d.merge.getD t false ≠ true) (hv : v ∈ order)
    (he : g.Edge v t) (hlt : order.idxOf v < order.idxOf t) :
    (∀ u ∈ order, g.Edge u t → order.idxOf u < order.idxOf t → u = v) ∧
      (g.targets v).count t = 1 := by
  rw [Ne, hs.merge t ht, forwardExits, not_le] at hm
  have hcount : ∀ u, g.Edge u t → 1 ≤ (g.targets u).count t := fun u hu =>
    List.count_pos_iff.2 hu
  obtain ⟨pre, post, hsplit⟩ := List.append_of_mem hv
  have hsum : ∀ f : Nat → Nat, (order.map f).sum = (pre.map f).sum + (f v + (post.map f).sum) := by
    intro f
    rw [hsplit, List.map_append, List.sum_append, List.map_cons, List.sum_cons]
  rw [hsum, if_pos hlt] at hm
  have hv1 := hcount v he
  refine ⟨fun u hu heu hltu => ?_, by omega⟩
  by_contra hne
  have hu1 := hcount u heu
  have hmem : u ∈ pre ∨ u ∈ post := by
    rw [hsplit] at hu
    rcases List.mem_append.1 hu with hu | hu
    · exact .inl hu
    · exact .inr ((List.mem_cons.1 hu).resolve_left hne)
  have hle : ∀ l : List Nat, u ∈ l → 1 ≤ (l.map fun u =>
      if order.idxOf u < order.idxOf t then (g.targets u).count t else 0).sum := by
    intro l hul
    obtain ⟨l₁, l₂, rfl⟩ := List.append_of_mem hul
    rw [List.map_append, List.sum_append, List.map_cons, List.sum_cons, if_pos hltu]
    omega
  rcases hmem with hmem | hmem
  · have := hle pre hmem
    omega
  · have := hle post hmem
    omega

include hs in
/-- A block that is no merge is immediately dominated by the source of its forward exit. -/
lemma idom_of_single (ht : t ∈ order) (hm : d.merge.getD t false ≠ true) (hv : v ∈ order)
    (he : g.Edge v t) (hlt : order.idxOf v < order.idxOf t) : g.IsIdom v t := by
  have hne : t ≠ g.entry := by
    rintro rfl
    rw [(h.idxOf_eq_zero ht).2 rfl] at hlt
    omega
  intro a
  rw [← h.dom_iff_sources ht hne (Q := (· = v)) (by rintro u rfl; exact ⟨hv, he⟩)
    (single_exit hs ht hm hv he hlt).1]
  exact ⟨by rintro ha u rfl; exact ha, fun ha => ha v rfl⟩

/-- A block other than the entry has an immediate dominator. -/
lemma exists_idom (ht : t ∈ order) (hne : t ≠ g.entry) : ∃ c, c ∈ order ∧ g.IsIdom c t := by
  obtain ⟨c, -, hc⟩ := (settles_immediateDominators h.toNumbered).2 t ht hne
  exact ⟨c, (h.idom_lt ht hc).1, hc⟩

/-- A block that `v` dominates is a child of it, if an exit leads there from `v` or from what a child
dominates that does not dominate the block. -/
lemma idom_of_edge {x : Nat} (hv : v ∈ order) (ht : t ∈ order) (hvt : g.Dom v t) (hne : v ≠ t)
    (hx : x ∈ order) (he : g.Edge x t)
    (hfrom : x = v ∨ ∃ c, g.IsIdom v c ∧ g.Dom c x ∧ ¬ g.Dom c t) : g.IsIdom v t := by
  have hte : t ≠ g.entry := by
    rintro rfl
    exact hne hvt.eq_entry
  obtain ⟨c', hco', hc'⟩ := h.exists_idom ht hte
  have hvc' : g.Dom v c' := (hc' v).2 ⟨hvt, hne⟩
  have hc'x : g.Dom c' x := hc'.dom.1.source hc'.dom.2 he
  have hc'v : g.Dom c' v := by
    rcases hfrom with rfl | ⟨c, hc, hcx, hct⟩
    · exact hc'x
    · rcases Dom.total ((h.ordered.mem x).1 hx) hc'x hcx with hcc | hcc
      · exact (hc c').2 ⟨hcc, fun e => hct (e ▸ hc'.dom.1)⟩
      · exact absurd (hcc.trans hc'.dom.1) hct
  rw [← h.dom_antisymm hv hc'v hvc']
  exact hc'

include hs in
/-- The labels around a block are around its children, if they include those of later merges. -/
lemma framed_child {frames : List Frame} (hf : Framed g order frames (fun k => g.Dom v k ∧ k ≠ v) v)
    (hv : v ∈ order) (hc : g.IsIdom v c) (hco : c ∈ order)
    (hmerge : ∀ w ∈ order, g.IsIdom v w → d.merge.getD w false = true →
      order.idxOf c < order.idxOf w → Labelled frames w .block) :
    Framed g order frames (g.Dom c) c where
  loop x hx hcx k he hle := by
    have hko := h.mem_of_edge hx he
    rcases hf.loop x hx (hc.dom.1.trans hcx) k he hle with ⟨hvk, hkv⟩ | hl
    · have hkx := h.dom_of_retreating hx he hle
      rcases Dom.total ((h.ordered.mem x).1 hx) hcx hkx with hck | hkc
      · exact .inl hck
      · by_cases hkc' : k = c
        · exact .inl (hkc' ▸ Dom.refl g k)
        · exact absurd (h.dom_antisymm hv ((hc k).2 ⟨hkc, hkc'⟩) hvk) hkv
    · exact .inr hl
  block x hx hcx t he hlt hct := by
    have hto := h.mem_of_edge hx he
    by_cases hvt : g.Dom v t
    · have hvx := h.idxOf_le hx (hc.dom.1.trans hcx)
      have hne : v ≠ t := by
        rintro rfl
        omega
      have hidom := h.idom_of_edge hv hto hvt hne hx he (.inr ⟨c, hc, hcx, hct⟩)
      have hcxle := h.idxOf_le hx hcx
      refine hmerge t hto hidom ?_ (by omega)
      by_contra hm
      obtain rfl := h.idom_unique hto hidom (h.idom_of_single hs hto hm hx he hlt)
      exact hc.dom.2 (h.dom_antisymm hco hc.dom.1 hcx)
    · exact hf.block x hx (hc.dom.1.trans hcx) t he hlt hvt

end Laid

/-! ### Exits -/

section

variable {place : List Frame → Nat → PlaceM (Shape B C)} {frames : List Frame}

/-- A target that is placed where an exit to it is: no label leads there. -/
def Inline (order : List Nat) (d : Dominance) (v t : Nat) : Prop :=
  order.idxOf v < order.idxOf t ∧ d.merge.getD t false ≠ true

/-- The target of an exit is jumped to, or placed there when no other exit leads to it. -/
lemma placeTarget_ok (h : g.Laid order) (hs : Sound g order d) (hv : v ∈ order)
    (hplace : ∀ c ∈ order, g.IsIdom v c → Places g order place c)
    (hf : Framed g order frames (fun k => g.Dom v k ∧ k ≠ v) v)
    (hmerge : ∀ w ∈ order, g.IsIdom v w → d.merge.getD w false = true → Labelled frames w .block)
    {t : Nat} (he : g.Edge v t) {st : Placing}
    (hfree : Inline order d v t → ∀ x ∈ order, g.Dom t x → st.placed.getD x true = false) :
    ∃ s st', placeTarget d place frames v t st = .ok (s, st') ∧
      ∀ x, (Inline order d v t → ¬ g.Dom t x) →
        st'.placed.getD x true = st.placed.getD x true := by
  have hto := h.mem_of_edge hv he
  rw [placeTarget, hs.number v hv, hs.number _ hto]
  by_cases hle : order.idxOf t ≤ order.idxOf v
  · rw [if_pos hle]
    have hl := (hf.loop v hv (Dom.refl g v) t he hle).resolve_left fun hin => by
      have := (h.idxOf_lt hto hin.1 (Ne.symm hin.2)).2
      omega
    obtain ⟨s, hjump⟩ := jump_of_labelled (B := B) (C := C) hl v st
    exact ⟨s, st, hjump, fun _ _ => rfl⟩
  · rw [if_neg hle]
    have hlt := Nat.lt_of_not_le hle
    by_cases hm : d.merge.getD t false = true
    · rw [if_pos hm]
      have hl : Labelled frames t .block := by
        by_cases hvt : g.Dom v t
        · refine hmerge _ hto (h.idom_of_edge hv hto hvt ?_ hv he (.inl rfl)) hm
          intro hvt
          rw [← hvt] at hlt
          exact hlt.false
        · exact hf.block v hv (Dom.refl g v) t he hlt hvt
      obtain ⟨s, hjump⟩ := jump_of_labelled (B := B) (C := C) hl v st
      exact ⟨s, st, hjump, fun _ _ => rfl⟩
    · rw [if_neg hm]
      have hinline : Inline order d v t := ⟨hlt, hm⟩
      have hidom := h.idom_of_single hs hto hm hv he hlt
      obtain ⟨s, st', hp, hst'⟩ := hplace _ hto hidom frames st
        (h.framed_child hs hf hv hidom hto fun w hw hvw hmw _ => hmerge w hw hvw hmw)
        (hfree hinline)
      exact ⟨s, st', hp, fun x hx => hst' x (hx hinline)⟩

/-- No later exit of a block leads to the target of an exit that is placed there. -/
lemma ne_of_inline (hs : Sound g order d) (hv : v ∈ order) {e : Exit C} {rest : List (Exit C)}
    (hexits : e :: rest <:+ g.exits v) (hto : e.target ∈ order)
    (hin : Inline order d v e.target) : ∀ e' ∈ rest, e'.target ≠ e.target := by
  intro e' he' heq
  obtain ⟨pre, hexits⟩ := hexits
  have hedge : g.Edge v e.target :=
    edge_of_mem (hexits ▸ List.mem_append_right _ List.mem_cons_self)
  have hcount := (Laid.single_exit hs hto hin.2 hv hedge hin.1).2
  rw [targets, ← hexits, List.map_append, List.map_cons, List.count_append,
    List.count_cons_self] at hcount
  have : 0 < (rest.map (·.target)).count e.target :=
    List.count_pos_iff.2 (List.mem_map.2 ⟨e', he', heq⟩)
  omega

/-- The exits of a block are placed, the last one first. -/
lemma placeExits_ok (h : g.Laid order) (hs : Sound g order d) (hv : v ∈ order)
    (hplace : ∀ c ∈ order, g.IsIdom v c → Places g order place c)
    (hf : Framed g order frames (fun k => g.Dom v k ∧ k ≠ v) v)
    (hmerge : ∀ w ∈ order, g.IsIdom v w → d.merge.getD w false = true → Labelled frames w .block)
    {exits : List (Exit C)} (hexits : exits <:+ g.exits v) {st : Placing}
    (hfree : ∀ e ∈ exits, Inline order d v e.target → ∀ x ∈ order, g.Dom e.target x →
      st.placed.getD x true = false) :
    ∃ s st', placeExits d place frames v exits st = .ok (s, st') ∧
      ∀ x, (∀ e ∈ exits, Inline order d v e.target → ¬ g.Dom e.target x) →
        st'.placed.getD x true = st.placed.getD x true := by
  induction exits with
  | nil => exact ⟨_, st, rfl, fun _ _ => rfl⟩
  | cons e rest ih =>
    have hedge : ∀ e' ∈ e :: rest, g.Edge v e'.target := fun e' he' =>
      edge_of_mem (hexits.subset he')
    have he := hedge e List.mem_cons_self
    have hto := h.mem_of_edge hv he
    obtain ⟨otherwise, st₁, hrest, hst₁⟩ := ih ((List.suffix_cons e rest).trans hexits)
      fun e' he' => hfree e' (List.mem_cons_of_mem _ he')
    obtain ⟨next, st₂, htarget, hst₂⟩ := placeTarget_ok h hs hv hplace hf hmerge he
      (fun hinline x hx htx => by
        -- no later exit leads to this target, so it has not been placed by them
        rw [hst₁ x fun e' he' hin => ?_]
        · exact hfree e List.mem_cons_self hinline x hx htx
        · have he'v := hedge e' (List.mem_cons_of_mem _ he')
          have heo := h.mem_of_edge hv he'v
          exact h.children_apart (h.idom_of_single hs hto hinline.2 hv he hinline.1)
            (h.idom_of_single hs heo hin.2 hv he'v hin.1)
            (ne_of_inline hs hv hexits hto hinline e' he').symm hto heo hx htx)
    have hexit : ∃ s, placeExit d place frames v e st₁ = .ok (s, st₂) := by
      rw [placeExit, PlaceM.bind_ok htarget]
      cases e.dispatch <;> exact ⟨_, rfl⟩
    obtain ⟨s, hexit⟩ := hexit
    have hall : ∃ s, placeExits d place frames v (e :: rest) st = .ok (s, st₂) := by
      rw [placeExits, PlaceM.bind_ok hrest, PlaceM.bind_ok hexit]
      cases e.test <;> exact ⟨_, rfl⟩
    obtain ⟨s, hall⟩ := hall
    refine ⟨s, st₂, hall, fun x hx => ?_⟩
    rw [hst₂ x (hx e List.mem_cons_self), hst₁ x fun e' he' => hx e' (List.mem_cons_of_mem _ he')]

/-- A block is placed with the merges that follow it. -/
lemma placeWithin_ok (h : g.Laid order) (hs : Sound g order d) (hv : v ∈ order)
    (hplace : ∀ c ∈ order, g.IsIdom v c → Places g order place c) {ys : List Nat}
    (hys : ∀ y ∈ ys, y ∈ order ∧ g.IsIdom v y ∧ d.merge.getD y false = true)
    (hdesc : ys.Pairwise fun a b => order.idxOf b < order.idxOf a)
    (hf : Framed g order frames (fun k => g.Dom v k ∧ k ≠ v) v)
    (hmerge : ∀ w ∈ order, g.IsIdom v w → d.merge.getD w false = true → w ∉ ys →
      Labelled frames w .block) (st : Placing)
    (hfree : ∀ c ∈ order, g.IsIdom v c → c ∈ ys ∨ d.merge.getD c false ≠ true →
      ∀ x ∈ order, g.Dom c x → st.placed.getD x true = false) :
    ∃ s st', g.placeWithin d place v ys frames st = .ok (s, st') ∧
      ∀ x, (∀ c ∈ order, g.IsIdom v c → c ∈ ys ∨ d.merge.getD c false ≠ true → ¬ g.Dom c x) →
        st'.placed.getD x true = st.placed.getD x true := by
  induction ys generalizing frames st with
  | nil =>
    have hchild : ∀ e ∈ g.exits v, Inline order d v e.target →
        e.target ∈ order ∧ g.IsIdom v e.target := by
      intro e he hin
      have hto := h.mem_of_edge hv (edge_of_mem he)
      exact ⟨hto, h.idom_of_single hs hto hin.2 hv (edge_of_mem he) hin.1⟩
    obtain ⟨next, st', hexits, hst'⟩ := placeExits_ok h hs hv hplace hf
      (fun w hw hvw hm => hmerge w hw hvw hm (by simp)) (List.suffix_refl _)
      fun e he hin => hfree _ (hchild e he hin).1 (hchild e he hin).2 (.inr hin.2)
    refine ⟨_, st', by rw [placeWithin, PlaceM.bind_ok hexits]; rfl, fun x hx => hst' x ?_⟩
    exact fun e he hin => hx _ (hchild e he hin).1 (hchild e he hin).2 (.inr hin.2)
  | cons y rest ih =>
    obtain ⟨hyo, hvy, hym⟩ := hys y List.mem_cons_self
    rw [List.pairwise_cons] at hdesc
    obtain ⟨inner, st₁, hinner, hst₁⟩ := ih (fun z hz => hys z (List.mem_cons_of_mem _ hz)) hdesc.2
      (hf.cons ⟨y, .block, st.nextLabel⟩)
      (fun w hw hvw hm hnot => by
        by_cases hwy : w = y
        · exact ⟨_, List.mem_cons_self, hwy.symm, rfl⟩
        · exact (hmerge w hw hvw hm (by simp [hwy, hnot])).cons _)
      { st with nextLabel := st.nextLabel + 1 }
      (fun c hc hvc hor => hfree c hc hvc (hor.imp_left (List.mem_cons_of_mem _)))
    obtain ⟨follow, st₂, hfollow, hst₂⟩ := hplace y hyo hvy frames st₁
      (h.framed_child hs hf hv hvy hyo fun w hw hvw hm hlt => hmerge w hw hvw hm fun hmem => by
        rcases List.mem_cons.1 hmem with rfl | hmem
        · exact hlt.false
        · exact absurd (hdesc.1 w hmem) (by omega))
      (fun x hx hyx => by
        rw [hst₁ x fun c hc hvc hor => ?_]
        · exact hfree y hyo hvy (.inl List.mem_cons_self) x hx hyx
        · refine h.children_apart hvy hvc ?_ hyo hc hx hyx
          rintro rfl
          rcases hor with hmem | hm
          · exact absurd (hdesc.1 y hmem) (by omega)
          · exact hm hym)
    have hfresh : (freshLabel : PlaceM Nat) st =
        .ok (st.nextLabel, { st with nextLabel := st.nextLabel + 1 }) := rfl
    refine ⟨_, st₂, by
      rw [placeWithin, PlaceM.bind_ok hfresh, PlaceM.bind_ok hinner, PlaceM.bind_ok hfollow]
      rfl, fun x hx => ?_⟩
    rw [hst₂ x (hx y hyo hvy (.inl List.mem_cons_self)), hst₁ x fun c hc hvc hor =>
      hx c hc hvc (hor.imp_left (List.mem_cons_of_mem _))]

end

/-- Inside a loop of a block, the block itself is labelled too. -/
lemma Framed.loop_header {frames : List Frame} (hf : Framed g order frames (g.Dom v) v) (l : Nat) :
    Framed g order (⟨v, .loop, l⟩ :: frames) (fun k => g.Dom v k ∧ k ≠ v) v where
  loop x hx hvx k he hle := by
    by_cases hkv : k = v
    · exact .inr ⟨_, List.mem_cons_self, hkv.symm, rfl⟩
    · exact ((hf.cons _).loop x hx hvx k he hle).imp_left fun hin => ⟨hin, hkv⟩
  block := (hf.cons _).block

/-- A block that no exit leads back to needs no label. -/
lemma Framed.of_not_header {frames : List Frame} (hf : Framed g order frames (g.Dom v) v)
    (hs : Sound g order d) (hv : v ∈ order) (hheader : d.header.getD v false ≠ true) :
    Framed g order frames (fun k => g.Dom v k ∧ k ≠ v) v where
  loop x hx hvx k he hle := by
    rcases hf.loop x hx hvx k he hle with hin | hl
    · refine .inl ⟨hin, ?_⟩
      rintro rfl
      exact hheader ((hs.header k hv).2 ⟨x, hx, he, hle⟩)
    · exact .inr hl
  block := hf.block

/-- A block is placed with all that it dominates, inside constructs with the labels for it. -/
lemma placeWithin_children (h : g.Laid order) (hs : Sound g order d) (hv : v ∈ order)
    {place : List Frame → Nat → PlaceM (Shape B C)} {frames : List Frame}
    (hplace : ∀ c ∈ order, g.IsIdom v c → Places g order place c)
    (hf : Framed g order frames (fun k => g.Dom v k ∧ k ≠ v) v) {st st₁ : Placing}
    (hfree : ∀ x ∈ order, g.Dom v x → st.placed.getD x true = false)
    (hst₁ : st₁.placed = st.placed.setIfInBounds v true) :
    ∃ s st', g.placeWithin d place v
        ((d.children.getD v []).filter fun y => d.merge.getD y false) frames st₁ = .ok (s, st') ∧
      ∀ x, ¬ g.Dom v x → st'.placed.getD x true = st.placed.getD x true := by
  have hset : ∀ x, x ≠ v → st₁.placed.getD x true = st.placed.getD x true := by
    intro x hx
    rw [hst₁, getD_setIfInBounds, if_neg fun hc => hx hc.1.symm]
  have hchildren : ∀ y ∈ (d.children.getD v []).filter fun y => d.merge.getD y false,
      y ∈ order ∧ g.IsIdom v y ∧ d.merge.getD y false = true := by
    intro y hy
    obtain ⟨hy, hm⟩ := List.mem_filter.1 hy
    obtain ⟨hyo, _, hvy⟩ := (hs.children v y).1 hy
    exact ⟨hyo, hvy, hm⟩
  have hmerges : ∀ w ∈ order, g.IsIdom v w → d.merge.getD w false = true →
      w ∈ (d.children.getD v []).filter fun y => d.merge.getD y false := by
    intro w hw hvw hm
    refine List.mem_filter.2 ⟨(hs.children v w).2 ⟨hw, ?_, hvw⟩, hm⟩
    rintro rfl
    exact hvw.dom.2 hvw.dom.1.eq_entry
  have hfree₁ : ∀ c ∈ order, g.IsIdom v c → ∀ x ∈ order, g.Dom c x →
      st₁.placed.getD x true = false := by
    intro c hc hvc x hx hcx
    rw [hset x]
    · exact hfree x hx (hvc.dom.1.trans hcx)
    · rintro rfl
      exact hvc.dom.2 (h.dom_antisymm hc hvc.dom.1 hcx)
  obtain ⟨s, st', hok, hst'⟩ := placeWithin_ok h hs hv hplace hchildren
    ((hs.descending v).filter _) hf (fun w hw hvw hm hnot => absurd (hmerges w hw hvw hm) hnot) st₁
    fun c hc hvc _ => hfree₁ c hc hvc
  refine ⟨s, st', hok, fun x hx => ?_⟩
  rw [hst' x fun c _ hvc _ hcx => hx (hvc.dom.1.trans hcx), hset x]
  rintro rfl
  exact hx (Dom.refl g x)

/-- A block with all that it dominates is placed. The fuel is enough when it bounds how many blocks
come after the block in the order. -/
theorem places_placeTree (h : g.Laid order) (hs : Sound g order d) {fuel : Nat} (hv : v ∈ order)
    (hfuel : order.length ≤ fuel + order.idxOf v) : Places g order (g.placeTree d fuel) v := by
  induction fuel generalizing v with
  | zero =>
    have := List.idxOf_lt_length_iff.2 hv
    omega
  | succ fuel ih =>
    intro frames st hf hfree
    have hplace : ∀ c ∈ order, g.IsIdom v c → Places g order (g.placeTree d fuel) c := by
      intro c hc hvc
      have := (h.idom_lt hc hvc).2
      exact ih hc (by omega)
    have hclaim : claim v st = .ok ((), { st with placed := st.placed.setIfInBounds v true }) := by
      have hbind : (get : PlaceM Placing) st = .ok (st, st) := rfl
      rw [claim, PlaceM.bind_ok hbind, hfree v hv (Dom.refl g v)]
      rfl
    rw [placeTree, PlaceM.bind_ok hclaim]
    by_cases hheader : d.header.getD v false = true
    · rw [if_pos hheader]
      have hfresh : (freshLabel : PlaceM Nat)
          { st with placed := st.placed.setIfInBounds v true } = .ok (st.nextLabel,
            { nextLabel := st.nextLabel + 1, placed := st.placed.setIfInBounds v true }) := rfl
      obtain ⟨s, st', hok, hst'⟩ :=
        placeWithin_children h hs hv hplace (hf.loop_header st.nextLabel) hfree (show Placing.placed
          { nextLabel := st.nextLabel + 1, placed := st.placed.setIfInBounds v true } = _ from rfl)
      refine ⟨.loop st.nextLabel s, st', ?_, hst'⟩
      rw [PlaceM.bind_ok hfresh, PlaceM.bind_ok hok]
      rfl
    · rw [if_neg hheader]
      exact placeWithin_children h hs hv hplace (hf.of_not_header hs hv hheader) hfree rfl

end Graph

end Dynarec.Flow
