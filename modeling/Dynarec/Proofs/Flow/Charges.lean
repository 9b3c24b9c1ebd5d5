import Dynarec.Proofs.Flow.Doorway
import Dynarec.Proofs.Flow.Split

/-!
# Charges for jumps back

What a run of a graph is charged for is told by the graph: one jump back for every exit that leads
back. Splitting the cycles of a graph keeps how its runs end, with these charges: every dispatcher
comes before the entries of a cycle of some level, and a part of a cycle that is split in turn is what
is left of it at the next level.
-/

namespace Dynarec.Flow.Graph

open Relation (ReflTransGen TransGen)

variable {B C ε σ : Type} {g g' : Graph B C} {v : Shape.Visitor B C ε σ} {count k n d : Nat}

open Classical in
/-- How many jumps back are charged on the way from a block to another: one if the exit leads back. -/
noncomputable def charges (g : Graph B C) (n t : Nat) : Nat :=
  if Back g.Live g.entry n t then 1 else 0

lemma charges_congr {t u w : Nat}
    (h : Back g.Live g.entry n t ↔ Back g'.Live g'.entry u w) : g.charges n t = g'.charges u w := by
  classical exact if_congr h rfl rfl

lemma charges_eq_zero {t : Nat} (h : ¬ Back g.Live g.entry n t) : g.charges n t = 0 := if_neg h

/-- Two graphs whose blocks choose the same exits and are charged the same for them, on a set of blocks
that runs do not leave, have the same runs. -/
lemma ends_congr {P : Nat → Prop} {ticks ticks' : Nat → Nat → Nat} {s : σ}
    {r : EStateM.Result (Halt ε) σ (Option UInt64)}
    (hpick : ∀ n, P n → ∀ d s, g'.pick v n d s = g.pick v n d s)
    (hstay : ∀ n, P n → ∀ e ∈ g.exits n, P e.target)
    (hticks : ∀ n, P n → ∀ e ∈ g.exits n, ticks' n e.target = ticks n e.target) (hn : P n) :
    g.Ends v ticks n d s r ↔ g'.Ends v ticks' n d s r := by
  constructor
  · intro h
    revert hn
    refine Ends.induct h fun n d s hc hn => ?_
    rw [ends_iff_continues, hpick n hn]
    exact hc.mono (fun x _ hp => hticks n hn x (mem_of_pick hp))
      fun x _ hp _ hgo => hgo.2 (hstay n hn x (mem_of_pick hp))
  · intro h
    revert hn
    refine Ends.induct h fun n d s hc hn => ?_
    rw [hpick n hn] at hc
    rw [ends_iff_continues]
    exact hc.mono (fun x _ hp => (hticks n hn x (mem_of_pick hp)).symm)
      fun x _ hp _ hgo => hgo.2 (hstay n hn x (mem_of_pick hp))

/-! ### Inserting a dispatcher -/

/-- Only blocks that are reached have exits. -/
def Reached (g : Graph B C) : Prop := ∀ u w, g.Edge u w → g.Leads g.entry u

lemma Reached.live (h : g.Reached) : g.Live = g.Edge := by
  funext u w
  exact propext ⟨And.right, fun he => ⟨h u w he, he⟩⟩

/-- A cycle of a graph whose entry nothing leads to, with its entries. -/
structure Dispatchable (g : Graph B C) (k : Nat) (c es : List Nat) : Prop extends g.Rooted where
  reached : g.Reached
  cycle : Cycle g.Edge g.entry k (· ∈ c)
  entries : ∀ x, x ∈ es ↔ x ∈ c ∧ ∃ u, u ∉ c ∧ g.Edge u x

namespace Dispatchable

variable {c es : List Nat} (h : g.Dispatchable k c es)
include h

lemma lt {x : Nat} (hx : x ∈ c) : x < g.blocks.size := by
  obtain ⟨u, hu⟩ := (h.cycle.tied hx hx).exists_edge
  exact h.target (edge_of_level hu)

lemma entry_not_mem : g.entry ∉ c := by
  intro hc
  obtain ⟨u, hu⟩ := (h.cycle.tied hc hc).exists_edge
  exact h.start u (edge_of_level hu)

lemma entries_lt : ∀ e ∈ es, e < g.blocks.size := fun e he => h.lt ((h.entries e).1 he).1

lemma exists_entry : ∃ e, e ∈ es := by
  obtain ⟨x, hx, _⟩ := h.cycle
  obtain ⟨y, hy, _⟩ := TransGen.head'_iff.1 (h.cycle.tied hx hx).1
  obtain ⟨u, w, hu, hw, he⟩ := exists_entering (S := (· ∈ c))
    (h.reached x y (edge_of_level hy)) h.entry_not_mem hx
  exact ⟨w, (h.entries w).2 ⟨hw, u, hu, he⟩⟩

lemma doorway {e : Nat} (he : e ∈ es) :
    Doorway g.Edge g.entry k (· ∈ c) (· ∈ es) g.blocks.size e where
  cycle := h.cycle
  entries := h.entries
  first := he
  start := h.entry_not_mem
  ne := h.entry.ne'
  to_none _ hu := (h.target hu).false
  from_none _ hw := hw.lt.false

lemma edge_dispatcher : (g.insertDispatcher es).2.Edge = through (· ∈ es) g.blocks.size g.Edge := by
  funext u w
  rw [eq_iff_iff, edge_insertDispatcher h.entries_lt]
  refine or_congr ⟨fun hu => ⟨hu.1.ne, hu.2⟩, fun hu => ⟨?_, hu.2⟩⟩ Iff.rfl
  rcases hu.2 with ⟨_, he⟩ | ⟨_, e, _, he⟩ <;> exact he.lt

lemma reached_dispatcher : (g.insertDispatcher es).2.Reached := by
  obtain ⟨e, he⟩ := h.exists_entry
  have hold : ∀ {u}, g.Leads g.entry u → (g.insertDispatcher es).2.Leads g.entry u :=
    leads_insertDispatcher h.entries_lt
  intro u w huw
  rcases (edge_insertDispatcher h.entries_lt).1 huw with ⟨_, ⟨_, he⟩ | ⟨_, e, _, he⟩⟩ | ⟨rfl, _⟩
  · exact hold (h.reached u w he)
  · exact hold (h.reached u e he)
  · obtain ⟨_, x, _, hx⟩ := (h.entries e).1 he
    exact (hold (h.reached x e hx)).tail
      ((edge_insertDispatcher h.entries_lt).2 (.inl ⟨hx.lt, .inr ⟨rfl, e, he, hx⟩⟩))

/-- The charges before a dispatcher was inserted are those on the way through it. -/
lemma charges_dispatcher {t : Nat} (he : g.Edge n t) :
    g.charges n t = g.ticksBefore es (g.insertDispatcher es).2.charges n t := by
  have hlive := h.reached.live
  have hlive' : (g.insertDispatcher es).2.Live = through (· ∈ es) g.blocks.size g.Edge := by
    rw [h.reached_dispatcher.live, h.edge_dispatcher]
  have hentry : (g.insertDispatcher es).2.entry = g.entry := rfl
  by_cases ht : t ∈ es
  · have hdoor := h.doorway ht
    have hzero : (g.insertDispatcher es).2.charges g.blocks.size t = 0 := by
      apply charges_eq_zero
      rw [hlive', hentry]
      exact hdoor.not_back_from_door
    rw [ticksBefore_of_mem ht (h.entries_lt t ht), hzero, Nat.add_zero]
    apply charges_congr
    rw [hlive, hlive', hentry]
    exact (hdoor.back_to_door ht he).symm
  · obtain ⟨e, hmem⟩ := h.exists_entry
    rw [ticksBefore_of_not_mem ht]
    apply charges_congr
    rw [hlive, hlive', hentry]
    exact ((h.doorway hmem).back_through he.lt.ne (h.target he).ne ht).symm

/-- Inserting a dispatcher before a cycle keeps how runs end. -/
lemma ends_dispatcher (hd : g.Dispatching count) (hes : ∀ e ∈ es, e < count)
    (hn : n < g.blocks.size) {s : σ} {r : EStateM.Result (Halt ε) σ (Option UInt64)} :
    g.Ends v g.charges n d s r ↔
      (g.insertDispatcher es).2.Ends v (g.insertDispatcher es).2.charges n d s r := by
  rw [← ends_insertDispatcher hd h.toInRange hes hn]
  exact ends_congr (P := (· < g.blocks.size)) (fun _ _ _ _ => rfl)
    (fun _ _ _ he => h.target (edge_of_mem he))
    (fun _ _ _ he => (h.charges_dispatcher (edge_of_mem he)).symm) hn

end Dispatchable

/-! ### Splitting -/

/-- A graph in which some blocks have been given dispatchers: runs from the blocks of the program,
those below `count`, end as they did before, and the cycles of other blocks stay. -/
structure Carried (v : Shape.Visitor B C ε σ) (count : Nat) (P : Nat → Prop) (g g' : Graph B C) :
    Prop extends g'.Rooted where
  dispatching : g'.Dispatching count
  reached : g'.Reached
  keeps : g'.entry = g.entry
  size : g.blocks.size ≤ g'.blocks.size
  frame : ∀ u w, w < g.blocks.size → ¬ P w → (g'.Edge u w ↔ g.Edge u w)
  cycle : ∀ j Z, Cycle g.Edge g.entry j Z → (∀ z, Z z → ¬ P z) → Cycle g'.Edge g.entry j Z
  proceeds : ∀ n < count, g.Proceeds v n → g'.Proceeds v n
  ends : ∀ n < count, ∀ d s r, g.Ends v g.charges n d s r ↔ g'.Ends v g'.charges n d s r

namespace Carried

variable {P Q : Nat → Prop} {g₁ g₂ : Graph B C}

lemma refl (hd : g.Dispatching count) (hg : g.Rooted) (hr : g.Reached) : Carried v count P g g where
  toRooted := hg
  dispatching := hd
  reached := hr
  keeps := rfl
  size := Nat.le_refl _
  frame _ _ _ _ := Iff.rfl
  cycle _ _ hZ _ := hZ
  proceeds _ _ h := h
  ends _ _ _ _ _ := Iff.rfl

lemma mono (h : Carried v count P g g₁) (hPQ : ∀ x, P x → Q x) : Carried v count Q g g₁ :=
  { h with
    frame := fun u w hw hn => h.frame u w hw fun hP => hn (hPQ w hP)
    cycle := fun j Z hZ hn => h.cycle j Z hZ fun z hz hP => hn z hz (hPQ z hP) }

lemma trans (h : Carried v count P g g₁) (h₂ : Carried v count P g₁ g₂) :
    Carried v count P g g₂ where
  toRooted := h₂.toRooted
  dispatching := h₂.dispatching
  reached := h₂.reached
  keeps := h₂.keeps.trans h.keeps
  size := h.size.trans h₂.size
  frame u w hw hn := (h₂.frame u w (hw.trans_le h.size) hn).trans (h.frame u w hw hn)
  cycle j Z hZ hn := by
    have := h₂.cycle j Z (h.keeps ▸ h.cycle j Z hZ hn) hn
    rwa [h.keeps] at this
  proceeds n hn hp := h₂.proceeds n hn (h.proceeds n hn hp)
  ends n hn d s r := (h.ends n hn d s r).trans (h₂.ends n hn d s r)

end Carried

lemma Dispatchable.carried {c es : List Nat} (h : g.Dispatchable k c es) (hd : g.Dispatching count)
    (hc : ∀ x ∈ c, x < count) : Carried v count (· ∈ c) g (g.insertDispatcher es).2 where
  toRooted := rooted_insertDispatcher h.toRooted h.entries_lt
    fun he => h.entry_not_mem ((h.entries _).1 he).1
  dispatching := dispatching_insertDispatcher hd h.toInRange fun e he => hc e ((h.entries e).1 he).1
  reached := h.reached_dispatcher
  keeps := rfl
  size := by
    rw [size_insertDispatcher]
    exact Nat.le_succ _
  frame u w hw hn := by
    obtain ⟨e, he⟩ := h.exists_entry
    rw [h.edge_dispatcher]
    exact (h.doorway he).through_iff hw.ne fun hes => hn ((h.entries w).1 hes).1
  cycle j Z hZ hn := by
    obtain ⟨e, he⟩ := h.exists_entry
    rw [h.edge_dispatcher]
    exact (h.doorway he).cycle_of_disjoint hZ hn
  proceeds _ hn hp := hp.insertDispatcher es (hn.trans_le hd.le)
  ends _ hn _ _ _ := h.ends_dispatcher hd (fun e he => hc e ((h.entries e).1 he).1)
    (hn.trans_le hd.le)

/-- A way of splitting regions of blocks of the program that keeps how runs end, if the cycles of the
region are cycles of some level. -/
def Carries (v : Shape.Visitor B C ε σ) (count : Nat)
    (split : Array Bool → Graph B C → Graph B C) : Prop :=
  ∀ (region : Array Bool) (g : Graph B C) (k : Nat), g.Dispatching count → g.Rooted → g.Reached →
    (∀ x, region.getD x false = true → x < count) →
    (∀ x, Tied (g.EdgeIn region) x x →
      Cycle g.Edge g.entry k (Tied (g.EdgeIn region) x)) →
    Carried v count (fun x => region.getD x false = true) g (split region g)

/-- What is left of a cycle without its only entry has cycles of the next level. -/
lemma cycle_inside {region : Array Bool} {X : Nat → Prop} {h : Nat} (hX : Cycle g.Edge g.entry k X)
    (honly : ∀ w, X w → (Entered g.Edge g.entry (level g.Edge g.entry k) w ↔ w = h))
    (hregion : ∀ x, region.getD x false = true ↔ X x ∧ x ≠ h) {x : Nat}
    (hx : Tied (g.EdgeIn region) x x) :
    Cycle g.Edge g.entry (k + 1) (Tied (g.EdgeIn region) x) := by
  have heq : g.EdgeIn region = fun u w => (X u ∧ u ≠ h) ∧ (X w ∧ w ≠ h) ∧ g.Edge u w := by
    funext u w
    simp only [EdgeIn, hregion]
  rw [heq] at hx ⊢
  refine ⟨x, hx, fun y => ?_⟩
  rw [hX.tied_inside honly]
  exact and_iff_right ((hX.tied_inside honly).1 hx).1

/-- A component is split, if splitting works for what is left of it. -/
lemma splitComponent_carried {split : Array Bool → Graph B C → Graph B C}
    (hsplit : Carries v count split) (hd : g.Dispatching count) (hg : g.Rooted) (hr : g.Reached)
    {c : List Nat} (hc : ∀ x ∈ c, x < count)
    (hcycle : g.isCyclic c = true → Cycle g.Edge g.entry k (· ∈ c)) :
    Carried v count (· ∈ c) g (splitComponent split g c) := by
  cases hcyc : g.isCyclic c with
  | false =>
    simp only [splitComponent, hcyc, Bool.not_false, if_true]
    exact .refl hd hg hr
  | true =>
    have hcycle := hcycle hcyc
    have hlt : ∀ x ∈ c, x < g.blocks.size := fun x hx => (hc x hx).trans_le hd.le
    have hentry : g.entry ∉ c := fun he => by
      obtain ⟨u, hu⟩ := (hcycle.tied he he).exists_edge
      exact hg.start u (edge_of_level hu)
    have hes := fun x => mem_entriesOf_component (x := x) hlt hentry
    have hdisp : g.Dispatchable k c (g.entriesOf (regionOf g.blocks.size c)) :=
      ⟨hg, hr, hcycle, hes⟩
    obtain ⟨e, he⟩ := hdisp.exists_entry
    have hdoor := hdisp.doorway he
    have hcut : ∀ a x, ((regionOf g.blocks.size c).setIfInBounds a false).getD x false = true ↔
        x ∈ c ∧ x ≠ a := fun a x => getD_cut hlt
    have hentered : ∀ w ∈ c, Entered g.Edge g.entry (level g.Edge g.entry k) w →
        w ∈ g.entriesOf (regionOf g.blocks.size c) := by
      rintro w hw (rfl | ⟨u, hu, hn⟩)
      · exact absurd hw hentry
      · exact (hes w).2 ⟨hw, u, fun huc => hn (hcycle.tied huc hw), hu⟩
    by_cases hE : ∃ a, g.entriesOf (regionOf g.blocks.size c) = [a]
    · obtain ⟨a, hE⟩ := hE
      rw [splitComponent_single hcyc hE]
      refine (hsplit _ g (k + 1) hd hg hr (fun x hx => hc x ((hcut a x).1 hx).1) fun x hx => ?_).mono
        fun x hx => ((hcut a x).1 hx).1
      refine cycle_inside hcycle (fun w hw => ⟨fun hent => ?_, ?_⟩) (hcut a) hx
      · have := hentered w hw hent
        rw [hE] at this
        exact List.mem_singleton.1 this
      · rintro rfl
        exact hdoor.entered_entry (hE ▸ List.mem_cons_self)
    · rw [splitComponent_several hcyc fun a ha => hE ⟨a, ha⟩]
      have hstep : Carried v count (· ∈ c) g _ := hdisp.carried hd hc
      refine hstep.trans ((hsplit _ _ (k + 1) hstep.dispatching hstep.toRooted hstep.reached
        (fun x hx => hc x ((hcut _ x).1 hx).1) fun x hx => ?_).mono
          fun x hx => ((hcut _ x).1 hx).1)
      -- the dispatcher has become the only entry of the cycle
      have hcycle' : Cycle (g.insertDispatcher (g.entriesOf (regionOf g.blocks.size c))).2.Edge
          g.entry k fun x => x ∈ c ∨ x = g.blocks.size := by
        rw [hdisp.edge_dispatcher]
        exact hdoor.cycle_through
      refine cycle_inside (h := g.blocks.size) hcycle' (fun w hw => ?_) (fun x => ?_) hx
      · rw [hdisp.edge_dispatcher]
        exact hdoor.entered_iff hw
      · rw [hcut]
        refine ⟨fun hx => ⟨.inl hx.1, hx.2⟩, fun hx => ⟨hx.1.resolve_right hx.2, hx.2⟩⟩

section

variable {region : Array Bool} {cs pre post : List (List Nat)} {c : List Nat}

/-- What a component leads to lies in it or in earlier ones. -/
lemma Parted.leads_back (h : g.Parted region cs) (heq : cs = pre ++ c :: post) {u w : Nat}
    (hu : u ∈ c ∨ ∃ c' ∈ pre, u ∈ c') (hl : g.LeadsIn region u w) :
    w ∈ c ∨ ∃ c' ∈ pre, w ∈ c' := by
  induction hl with
  | refl => exact hu
  | @tail x w _ he ih =>
    rcases ih with hx | ⟨c', hc', hx⟩
    · exact h.back pre c post heq x hx w he
    · obtain ⟨pre₁, pre₂, rfl⟩ := List.append_of_mem hc'
      rcases h.back pre₁ c' (pre₂ ++ c :: post) (by rw [heq]; simp) x hx w he with hw | ⟨c'', hc'', hw⟩
      · exact .inr ⟨c', hc', hw⟩
      · exact .inr ⟨c'', List.mem_append_left _ hc'', hw⟩

/-- A component is a cycle, if one of its blocks lies on one. -/
lemma Parted.tied_iff (h : g.Parted region cs) (hc : c ∈ cs) {x y : Nat} (hx : x ∈ c)
    (ht : Tied (g.EdgeIn region) x x) : y ∈ c ↔ Tied (g.EdgeIn region) x y := by
  constructor
  · intro hy
    rcases Relation.reflTransGen_iff_eq_or_transGen.1 (h.strong c hc x hx y hy) with rfl | hxy
    · exact ht
    · exact ⟨hxy, ht.1.trans_right (h.strong c hc y hy x hx)⟩
  · intro hxy
    obtain ⟨pre, post, heq⟩ := List.append_of_mem hc
    refine (h.leads_back heq (.inl hx) hxy.1.to_reflTransGen).resolve_right ?_
    -- an earlier component does not lead back to this one
    rintro ⟨c', hc', hy⟩
    obtain ⟨pre₁, pre₂, rfl⟩ := List.append_of_mem hc'
    have hapart := h.disjoint
    rw [heq, List.append_assoc, List.cons_append] at hapart
    have hearlier : cs = pre₁ ++ c' :: (pre₂ ++ c :: post) := by
      rw [heq]
      simp
    rcases h.leads_back hearlier (.inl hy) hxy.2.to_reflTransGen with hx' | ⟨c'', hc'', hx'⟩
    · exact List.rel_of_pairwise_cons (List.pairwise_append.1 hapart).2.1 (by simp) hx' hx
    · exact (List.pairwise_append.1 hapart).2.2 c'' hc'' c (by simp) hx' hx

/-- The components of a region are split one after the other. -/
lemma foldl_splitComponent_carried {split : Array Bool → Graph B C → Graph B C}
    (hsplit : Carries v count split) (hcs : g.Parted region cs)
    (hregion : ∀ x, region.getD x false = true → x < count)
    (hcycles : ∀ x, Tied (g.EdgeIn region) x x →
      Cycle g.Edge g.entry k (Tied (g.EdgeIn region) x))
    (heq : cs = pre ++ post) {g₁ : Graph B C}
    (h : Carried v count (fun x => ∃ c ∈ pre, x ∈ c) g g₁) :
    Carried v count (fun x => ∃ c ∈ cs, x ∈ c) g (post.foldl (splitComponent split) g₁) := by
  induction post generalizing pre g₁ with
  | nil =>
    rw [List.append_nil] at heq
    exact heq ▸ h
  | cons c post ih =>
    have hc : c ∈ cs := heq ▸ List.mem_append_right _ List.mem_cons_self
    have hmem : ∀ x ∈ c, x < g.blocks.size ∧ region.getD x false = true := fun x hx =>
      (hcs.mem x).1 ⟨c, hc, hx⟩
    have hapart : ∀ x ∈ c, ¬ ∃ c' ∈ pre, x ∈ c' := by
      rintro x hx ⟨c', hc', hx'⟩
      have := hcs.disjoint
      rw [heq, List.pairwise_append] at this
      exact this.2.2 c' hc' c List.mem_cons_self hx' hx
    have hcycle : g₁.isCyclic c = true → Cycle g₁.Edge g₁.entry k (· ∈ c) := by
      intro hcyc
      obtain ⟨x, hx⟩ : ∃ x, x ∈ c := List.exists_mem_of_ne_nil c (by rintro rfl; cases hcyc)
      have hx' := hcs.cyclic hc (fun y hy he =>
        (h.frame y y (hmem y hy).1 (hapart y hy)).1 he) hcyc x hx
      have hmem' : (· ∈ c) = Tied (g.EdgeIn region) x :=
        funext fun y => propext (hcs.tied_iff hc hx ⟨hx', hx'⟩)
      rw [h.keeps]
      refine h.cycle k _ ?_ hapart
      rw [hmem']
      exact hcycles x ⟨hx', hx'⟩
    have hstep := splitComponent_carried hsplit h.dispatching h.toRooted h.reached
      (fun x hx => hregion x (hmem x hx).2) hcycle
    refine ih (heq.trans (by rw [List.append_assoc]; rfl) : cs = (pre ++ [c]) ++ post) ?_
    refine (h.mono ?_).trans (hstep.mono ?_)
    · rintro x ⟨c', hc', hx⟩
      exact ⟨c', List.mem_append_left _ hc', hx⟩
    · exact fun x hx => ⟨c, List.mem_append_right _ List.mem_cons_self, hx⟩

end

/-- Splitting keeps how runs end, whatever the fuel. -/
theorem carries_split (v : Shape.Visitor B C ε σ) (count fuel : Nat) :
    Carries v count (split (B := B) (C := C) fuel) := by
  induction fuel with
  | zero => exact fun region g k hd hg hr _ _ => .refl hd hg hr
  | succ fuel ih =>
    intro region g k hd hg hr hregion hcycles
    have hcs := parted_components hg.target region
    rw [split_succ]
    refine (foldl_splitComponent_carried ih hcs hregion hcycles (List.nil_append _).symm
      (.refl hd hg hr)).mono fun x hx => ((hcs.mem x).1 hx).2

end Dynarec.Flow.Graph
