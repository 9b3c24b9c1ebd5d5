import Mathlib.Data.List.Perm.Subperm
import Dynarec.Proofs.Flow.Components
import Dynarec.Proofs.Flow.Dispatch

/-!
# Splitting cycles

`Graph.splitIrreducible` leaves a graph in which every cycle has a single entry. A cycle here is a set
of blocks that lead to each other inside the set, and it has a single entry when it lies in a set of
blocks that is entered only at one block, which is on the cycle.

`Graph.Carved` says what splitting the cycles of some blocks does to the whole graph: exits to other
blocks stay, exits into them come from where such exits came from before, and each of their cycles
has a single entry. Blocks that are made on the way are counted among them.
-/

namespace Dynarec.Flow.Graph

open Relation (ReflTransGen TransGen)

variable {B C ε σ : Type} {g g' : Graph B C}

/-- A graph whose exits lead to blocks other than the entry. -/
structure Rooted (g : Graph B C) : Prop extends InRange g where
  start : ∀ u, ¬ g.Edge u g.entry

lemma rooted_insertDispatcher (hg : g.Rooted) {es : List Nat} (hes : ∀ e ∈ es, e < g.blocks.size)
    (hentry : g.entry ∉ es) : (g.insertDispatcher es).2.Rooted where
  toInRange := inRange_insertDispatcher hg.toInRange hes
  start u he := by
    rcases (edge_insertDispatcher hes).1 he with ⟨_, ⟨_, he⟩ | ⟨hn, _⟩⟩ | ⟨_, hw⟩
    · exact hg.start u he
    · exact hg.entry.ne hn
    · exact hentry hw

/-- Paths go through a dispatcher. -/
lemma leads_insertDispatcher {es : List Nat} (hes : ∀ e ∈ es, e < g.blocks.size) {u w : Nat}
    (h : g.Leads u w) : (g.insertDispatcher es).2.Leads u w := by
  induction h with
  | refl => exact .refl
  | @tail u w _ he ih =>
    by_cases hw : w ∈ es
    · refine (ih.tail ((edge_insertDispatcher hes).2 (.inl ⟨he.lt, .inr ⟨rfl, w, hw, he⟩⟩))).tail ?_
      exact (edge_insertDispatcher hes).2 (.inr ⟨rfl, hw⟩)
    · exact ih.tail ((edge_insertDispatcher hes).2 (.inl ⟨he.lt, .inl ⟨hw, he⟩⟩))

/-! ### Where a region is entered -/

/-- Mark the blocks of a region among some blocks. -/
def markIn (region : Array Bool) (entered : Array Bool) (ws : List Nat) : Array Bool :=
  ws.foldl (fun entered w =>
    if region.getD w false then entered.setIfInBounds w true else entered) entered

lemma size_markIn (region : Array Bool) (entered : Array Bool) (ws : List Nat) :
    (markIn region entered ws).size = entered.size := by
  unfold markIn
  induction ws generalizing entered with
  | nil => rfl
  | cons x ws ih =>
    rw [List.foldl_cons, ih]
    split
    · exact Array.size_setIfInBounds
    · rfl

lemma getD_markIn {region entered : Array Bool} {ws : List Nat} {w : Nat} :
    (markIn region entered ws).getD w false = true ↔ entered.getD w false = true ∨
      w ∈ ws ∧ region.getD w false = true ∧ w < entered.size := by
  unfold markIn
  induction ws generalizing entered with
  | nil => simp
  | cons x ws ih =>
    rw [List.foldl_cons, ih, List.mem_cons]
    split
    · next hx =>
      rw [getD_setIfInBounds, Array.size_setIfInBounds]
      grind
    · next hx => grind

/-- The blocks of a region are marked that exits from some blocks outside lead to. -/
lemma getD_foldl_markIn {region entered : Array Bool} {vs : List Nat} {w : Nat} :
    (vs.foldl (fun entered v =>
      if region.getD v false then entered else markIn region entered (g.targets v))
      entered).getD w false = true ↔ entered.getD w false = true ∨
        (∃ v ∈ vs, region.getD v false = false ∧ g.Edge v w) ∧
          region.getD w false = true ∧ w < entered.size := by
  induction vs generalizing entered with
  | nil => simp
  | cons x vs ih =>
    rw [List.foldl_cons, ih]
    by_cases hx : region.getD x false = true
    · simp only [hx, if_true, List.mem_cons]
      grind
    · simp only [hx, Bool.false_eq_true, if_false, getD_markIn, size_markIn, List.mem_cons]
      have hxf : region.getD x false = false := by simpa using hx
      simp only [Edge]
      grind

lemma entriesOf_eq (g : Graph B C) (region : Array Bool) : g.entriesOf region =
    (List.range g.blocks.size).filter fun v =>
      ((List.range g.blocks.size).foldl (fun entered v =>
        if region.getD v false then entered else markIn region entered (g.targets v))
        (Array.replicate g.blocks.size false)).getD v false ||
          (region.getD v false && v == g.entry) := rfl

/-- A region is entered at the entry of the graph and where exits from outside lead. -/
lemma mem_entriesOf {region : Array Bool} {w : Nat} :
    w ∈ g.entriesOf region ↔ w < g.blocks.size ∧ region.getD w false = true ∧
      (w = g.entry ∨ ∃ u, region.getD u false = false ∧ g.Edge u w) := by
  have hz : (Array.replicate g.blocks.size false).getD w false = false := by
    simp only [Array.getD_eq_getD_getElem?, Array.getElem?_replicate]
    split <;> rfl
  rw [entriesOf_eq, List.mem_filter, List.mem_range, Bool.or_eq_true, getD_foldl_markIn, hz,
    Bool.and_eq_true, beq_iff_eq, Array.size_replicate]
  constructor
  · rintro ⟨hw, (h | ⟨⟨u, _, hu, he⟩, hr, _⟩) | ⟨hr, he⟩⟩
    · cases h
    · exact ⟨hw, hr, .inr ⟨u, hu, he⟩⟩
    · exact ⟨hw, hr, .inl he⟩
  · rintro ⟨hw, hr, he | ⟨u, hu, he⟩⟩
    · exact ⟨hw, .inr ⟨hr, he⟩⟩
    · exact ⟨hw, .inl (.inr ⟨⟨u, List.mem_range.2 he.lt, hu, he⟩, hr, hw⟩)⟩

/-! ### Cycles with a single entry -/

/-- Blocks that lead to each other without leaving the set. -/
structure Strong (g : Graph B C) (X : Nat → Prop) : Prop where
  nonempty : ∃ x, X x
  leads : ∀ x y, X x → X y → TransGen (fun a b => X a ∧ X b ∧ g.Edge a b) x y

/-- A set of blocks that is entered at one block only. -/
structure SingleEntry (g : Graph B C) (S : Nat → Prop) (h : Nat) : Prop where
  entry : S g.entry → g.entry = h
  edge : ∀ u w, g.Edge u w → ¬ S u → S w → w = h

/-- Every cycle inside a set lies in a part of the set with a single entry on the cycle. -/
def Reducible (g : Graph B C) (A : Nat → Prop) : Prop :=
  ∀ X, g.Strong X → (∀ x, X x → A x) →
    ∃ S h, (∀ x, X x → S x) ∧ (∀ x, S x → A x) ∧ X h ∧ g.SingleEntry S h

/-- A block that alone is entered splits the cycles through it. -/
lemma Reducible.insert {A : Nat → Prop} {hd : Nat} (h : g.Reducible A)
    (hentry : g.SingleEntry (fun x => A x ∨ x = hd) hd) :
    g.Reducible fun x => A x ∨ x = hd := by
  intro X hX hXA
  by_cases hXhd : X hd
  · exact ⟨_, hd, hXA, fun _ h => h, hXhd, hentry⟩
  · have hin : ∀ x, X x → A x := fun x hx =>
      (hXA x hx).resolve_right fun hxh => hXhd (hxh ▸ hx)
    obtain ⟨S, hd', hXS, hSA, hXhd', hS⟩ := h X hX hin
    exact ⟨S, hd', hXS, fun x hx => .inl (hSA x hx), hXhd', hS⟩

/-- A graph `g'` in which the cycles of a set of blocks of `g` have single entries. The blocks that
are new in `g'` are in the set. -/
structure Carved (g : Graph B C) (A : Nat → Prop) (g' : Graph B C) : Prop where
  size : g.blocks.size ≤ g'.blocks.size
  entry : g'.entry = g.entry
  fresh : ∀ n, g.blocks.size ≤ n → (A n ↔ n < g'.blocks.size)
  frame : ∀ u w, ¬ A w → (g'.Edge u w ↔ g.Edge u w)
  into : ∀ u w, ¬ A u → A w → g'.Edge u w → ∃ e, A e ∧ g.Edge u e
  leads : ∀ u w, g.Edge u w → g'.Leads u w
  rooted : g.Rooted → g'.Rooted
  reducible : g'.Reducible A

/-- A path into a set enters it somewhere. -/
lemma exists_entering {R : Nat → Nat → Prop} {S : Nat → Prop} {a b : Nat}
    (h : ReflTransGen R a b) (ha : ¬ S a) (hb : S b) : ∃ u w, ¬ S u ∧ S w ∧ R u w := by
  induction h with
  | refl => exact absurd hb ha
  | @tail u w _ he ih =>
    by_cases hu : S u
    · exact ih hu
    · exact ⟨u, w, hu, hb, he⟩

/-- A path that leaves a set does so somewhere, inside any other set that it stays in. -/
lemma exists_leaving {R : Nat → Nat → Prop} {S : Nat → Prop} {a b : Nat} (h : TransGen R a b)
    (ha : S a) (hb : ¬ S b) : ∃ u w, S u ∧ ¬ S w ∧ R u w := by
  induction h with
  | single he => exact ⟨_, _, ha, hb, he⟩
  | @tail u w _ he ih =>
    by_cases hu : S u
    · exact ⟨u, w, hu, hb, he⟩
    · exact ih hu

/-- A cycle that is not inside a set never is, if no exit of its blocks leads into the set. -/
lemma Strong.outside {X S : Nat → Prop} {x : Nat} (hX : g.Strong X)
    (hcross : ∀ u w, X u → ¬ S u → S w → ¬ g.Edge u w) (hx : X x) (hxS : ¬ S x) :
    ∀ y, X y → ¬ S y := by
  intro y hy hyS
  obtain ⟨u, w, hu, hw, _, hXw, he⟩ := exists_leaving (S := fun z => ¬ S z ∧ X z)
    (hX.leads x y hx hy) ⟨hxS, hx⟩ (fun h => h.1 hyS)
  have hwS : S w := by
    by_contra hn
    exact hw ⟨hn, hXw⟩
  exact hcross u w hu.2 hu.1 hwS he

namespace Carved

variable {g₁ g₂ : Graph B C} {A A₂ : Nat → Prop}

/-- A set whose cycles have single entries needs no change. -/
lemma same (hA : ∀ x, A x → x < g.blocks.size) (h : g.Reducible A) : Carved g A g where
  size := le_rfl
  entry := rfl
  fresh n hn := ⟨fun h => hA n h, fun h => absurd h (Nat.not_lt_of_le hn)⟩
  frame _ _ _ := Iff.rfl
  into _ w _ hw he := ⟨w, hw, he⟩
  leads _ _ he := .single he
  rooted := id
  reducible := h

/-- Paths stay. -/
lemma leads_of_leads (h : Carved g A g') {u w : Nat} (hl : g.Leads u w) : g'.Leads u w := by
  induction hl with
  | refl => exact .refl
  | tail _ he ih => exact ih.trans (h.leads _ _ he)

/-- A cycle of the first set that another change leaves alone is still in its part. -/
lemma reducible_of_outside (h : Carved g A g₁) (h₂ : Carved g₁ A₂ g₂)
    (hdisj : ∀ x, x < g₁.blocks.size → A₂ x → ¬ A x) {X : Nat → Prop} (hX : g₂.Strong X)
    (hout : ∀ y, X y → ¬ A₂ y) (hXA : ∀ y, X y → A y) :
    ∃ S hd, (∀ x, X x → S x) ∧ (∀ x, S x → A x) ∧ X hd ∧
      g₂.SingleEntry S hd := by
  have hX₁ : g₁.Strong X := ⟨hX.nonempty, fun a b ha hb =>
    TransGen.mono (fun c d hcd => ⟨hcd.1, hcd.2.1,
      (h₂.frame c d (hout d hcd.2.1)).1 hcd.2.2⟩) a b (hX.leads a b ha hb)⟩
  obtain ⟨S, hd, hXS, hSA, hXhd, hS⟩ := h.reducible X hX₁ hXA
  have hSout : ∀ y, S y → ¬ A₂ y := by
    intro y hy hy₂
    rcases Nat.lt_or_ge y g₁.blocks.size with hlt | hge
    · exact hdisj y hlt hy₂ (hSA y hy)
    · rcases Nat.lt_or_ge y g.blocks.size with hlt' | hge'
      · exact absurd hge (Nat.not_le_of_lt (hlt'.trans_le h.size))
      · exact absurd ((h.fresh y hge').1 (hSA y hy)) (Nat.not_lt_of_le hge)
  refine ⟨S, hd, hXS, hSA, hXhd, ?_, fun u w he hu hw => ?_⟩
  · rw [h₂.entry]
    exact hS.entry
  · exact hS.edge u w ((h₂.frame u w (hSout w hw)).1 he) hu hw

/-- After the cycles of one set, those of another set are treated that the first one does not lead
to. -/
lemma trans (h : Carved g A g₁) (h₂ : Carved g₁ A₂ g₂) (hg : g.Rooted)
    (hdisj : ∀ x, x < g₁.blocks.size → A₂ x → ¬ A x)
    (hstay : ∀ u w, A u → A₂ w → ¬ g.Edge u w) : Carved g (fun x => A x ∨ A₂ x) g₂ where
  size := h.size.trans h₂.size
  entry := h₂.entry.trans h.entry
  fresh n hn := by
    have h₁' := h.fresh n hn
    have hle := h₂.size
    rcases Nat.lt_or_ge n g₁.blocks.size with hlt | hge
    · exact ⟨fun _ => hlt.trans_le hle, fun _ => .inl (h₁'.2 hlt)⟩
    · have h₂' := h₂.fresh n hge
      refine ⟨?_, fun hn => .inr (h₂'.2 hn)⟩
      rintro (hA | hA)
      · exact absurd (h₁'.1 hA) (Nat.not_lt_of_le hge)
      · exact h₂'.1 hA
  frame u w hw := by
    rw [not_or] at hw
    exact (h₂.frame u w hw.2).trans (h.frame u w hw.1)
  into u w hu hw he := by
    rw [not_or] at hu
    by_cases hw₂ : A₂ w
    · obtain ⟨e, hAe, he⟩ := h₂.into u w hu.2 hw₂ he
      exact ⟨e, .inr hAe, (h.frame u e (hdisj e ((h.rooted hg).target he) hAe)).1 he⟩
    · obtain ⟨e, hAe, he⟩ := h.into u w hu.1 (hw.resolve_right hw₂) ((h₂.frame u w hw₂).1 he)
      exact ⟨e, .inl hAe, he⟩
  leads u w he := h₂.leads_of_leads (h.leads u w he)
  rooted hg := h₂.rooted (h.rooted hg)
  reducible X hX hXA := by
    have hcross : ∀ u w, A u → ¬ A₂ u → A₂ w → ¬ g₂.Edge u w := by
      intro u w hu hu₂ hw he
      obtain ⟨e, hAe, he⟩ := h₂.into u w hu₂ hw he
      exact hstay u e hu hAe ((h.frame u e (hdisj e ((h.rooted hg).target he) hAe)).1 he)
    by_cases hmeet : ∃ x, X x ∧ ¬ A₂ x
    · -- the cycle is one of the first set, since it cannot come back from the second one
      obtain ⟨x, hx, hx₂⟩ := hmeet
      have hout := hX.outside
        (fun u w hu hu₂ => hcross u w ((hXA u hu).resolve_right hu₂) hu₂) hx hx₂
      obtain ⟨S, hd, hXS, hSA, hXhd, hS⟩ := h.reducible_of_outside h₂ hdisj hX hout fun y hy =>
        (hXA y hy).resolve_right (hout y hy)
      exact ⟨S, hd, hXS, fun y hy => .inl (hSA y hy), hXhd, hS⟩
    · have hin : ∀ y, X y → A₂ y := fun y hy => by
        by_contra hn
        exact hmeet ⟨y, hy, hn⟩
      obtain ⟨S, hd, hXS, hSA, hXhd, hS⟩ := h₂.reducible X hX hin
      exact ⟨S, hd, hXS, fun y hy => .inr (hSA y hy), hXhd, hS⟩

/-- A cycle that is entered at one of its blocks is split by splitting what is left without it. -/
lemma single {c : Nat → Prop} {hd : Nat} (h : Carved g A g') (hg : g.Rooted)
    (hA : ∀ x, x < g.blocks.size → (A x ↔ c x ∧ x ≠ hd)) (hlt : hd < g.blocks.size)
    (hcycle : ∀ x, c x → ∃ u, g.Edge u x) (honly : ∀ u w, g.Edge u w → ¬ c u → c w → w = hd) :
    Carved g (fun x => A x ∨ x = hd) g' where
  size := h.size
  entry := h.entry
  fresh n hn := by
    have hne : n ≠ hd := fun he => absurd hlt (Nat.not_lt_of_le (he ▸ hn))
    rw [← h.fresh n hn]
    simp [hne]
  frame u w hw := h.frame u w fun hw' => hw (.inl hw')
  into u w hu hw he := by
    rw [not_or] at hu
    by_cases hw' : A w
    · obtain ⟨e, hAe, he⟩ := h.into u w hu.1 hw' he
      exact ⟨e, .inl hAe, he⟩
    · exact ⟨w, hw, (h.frame u w hw').1 he⟩
  leads := h.leads
  rooted := h.rooted
  reducible := h.reducible.insert
    { entry := fun he => by
        rw [h.entry] at he ⊢
        refine he.resolve_left fun he => ?_
        obtain ⟨u, hu⟩ := hcycle _ ((hA _ hg.entry).1 he).1
        exact hg.start u hu
      edge := fun u w he hu hw => by
        rw [not_or] at hu
        refine hw.resolve_left fun hw => ?_
        obtain ⟨e, hAe, he'⟩ := h.into u w hu.1 hw he
        have hce := (hA e (hg.target he')).1 hAe
        have hcu : ¬ c u := fun hcu => hu.1 ((hA u he'.lt).2 ⟨hcu, hu.2⟩)
        exact hce.2 (honly u e he' hcu hce.1) }

/-- A cycle that is entered at several blocks is split by giving it a dispatcher. -/
lemma dispatch {c : Nat → Prop} {es : List Nat}
    (h : Carved (g.insertDispatcher es).2 A g') (hg : g.Rooted)
    (hA : ∀ x, x < g.blocks.size + 1 → (A x ↔ c x)) (hc : ∀ x, c x → x < g.blocks.size)
    (hes : ∀ x, x ∈ es ↔ c x ∧ ∃ u, ¬ c u ∧ g.Edge u x) (hentry : ¬ c g.entry) :
    Carved g (fun x => A x ∨ x = g.blocks.size) g' := by
  have helt : ∀ e ∈ es, e < g.blocks.size := fun e he => hc e ((hes e).1 he).1
  have hsize : g.blocks.size < g'.blocks.size := by
    have := h.size
    rw [size_insertDispatcher] at this
    exact this
  have hAD : ¬ A g.blocks.size := fun hA' =>
    (hc _ ((hA _ (Nat.lt_succ_self _)).1 hA')).false
  have hin : ∀ {x}, A x → x < g.blocks.size → c x := fun hx hlt =>
    (hA _ (Nat.lt_succ_of_lt hlt)).1 hx
  -- an exit from outside into the cycle was led to the dispatcher
  have hinto : ∀ u w, ¬ A u → u ≠ g.blocks.size → A w → ¬ g'.Edge u w := by
    intro u w hu hun hw he
    obtain ⟨e, hAe, he⟩ := h.into u w hu hw he
    rcases (edge_insertDispatcher helt).1 he with ⟨hult, ⟨hne, he⟩ | ⟨rfl, _⟩⟩ | ⟨hu', _⟩
    · refine hne ((hes e).2 ⟨hin hAe (hg.target he), u, fun hcu => hu ?_, he⟩)
      exact (hA u (Nat.lt_succ_of_lt hult)).2 hcu
    · exact hAD hAe
    · exact hun hu'
  exact
    { size := hsize.le
      entry := h.entry
      fresh := fun n hn => by
        rcases Nat.eq_or_lt_of_le hn with rfl | hlt
        · exact ⟨fun _ => hsize, fun _ => .inr rfl⟩
        · have hne : n ≠ g.blocks.size := hlt.ne'
          rw [← h.fresh n (by rw [size_insertDispatcher]; exact hlt)]
          simp [hne]
      frame := fun u w hw => by
        rw [not_or] at hw
        rw [h.frame u w hw.1, edge_insertDispatcher helt]
        have hwes : w ∉ es := fun hwe => hw.1 ((hA w (Nat.lt_succ_of_lt (helt w hwe))).2
          ((hes w).1 hwe).1)
        simp only [hwes, not_false_eq_true, true_and, hw.2, false_and, or_false, and_false]
        exact ⟨fun h => h.2, fun h => ⟨h.lt, h⟩⟩
      into := fun u w hu hw he => by
        rw [not_or] at hu
        rcases hw with hw | rfl
        · exact absurd he (hinto u w hu.1 hu.2 hw)
        · rw [h.frame u _ hAD, edge_insertDispatcher helt] at he
          rcases he with ⟨_, ⟨_, he⟩ | ⟨_, e, hee, he⟩⟩ | ⟨hu', _⟩
          · exact absurd (hg.target he) (lt_irrefl _)
          · exact ⟨e, .inl ((hA e (Nat.lt_succ_of_lt (helt e hee))).2 ((hes e).1 hee).1), he⟩
          · exact absurd hu' hu.2
      leads := fun u w he => h.leads_of_leads (leads_insertDispatcher helt (.single he))
      rooted := fun hg => h.rooted (rooted_insertDispatcher hg helt fun h => hentry ((hes _).1 h).1)
      reducible := h.reducible.insert
        { entry := fun he => by
            rw [h.entry] at he ⊢
            exact he.resolve_left fun hA' => hentry (hin hA' hg.entry)
          edge := fun u w he hu hw => by
            rw [not_or] at hu
            exact hw.resolve_left fun hw => hinto u w hu.1 hu.2 hw he } }

end Carved

/-! ### Splitting a region -/

/-- Split one component. -/
def splitComponent (split : Array Bool → Graph B C → Graph B C) (g : Graph B C)
    (members : List Nat) : Graph B C :=
  if !g.isCyclic members then g
  else
    let cycle := regionOf g.blocks.size members
    let (header, g) := match g.entriesOf cycle with
      | [single] => (single, g)
      | entries => g.insertDispatcher entries
    split (cycle.setIfInBounds header false) g

lemma split_succ (fuel : Nat) (region : Array Bool) (g : Graph B C) :
    split (fuel + 1) region g = (g.components region).foldl (splitComponent (split fuel)) g := rfl

lemma splitComponent_single {split : Array Bool → Graph B C → Graph B C} {c : List Nat} {a : Nat}
    (hc : g.isCyclic c = true) (h : g.entriesOf (regionOf g.blocks.size c) = [a]) :
    splitComponent split g c = split ((regionOf g.blocks.size c).setIfInBounds a false) g := by
  simp only [splitComponent, hc, h, Bool.not_true, Bool.false_eq_true, if_false]

lemma splitComponent_several {split : Array Bool → Graph B C → Graph B C} {c : List Nat}
    (hc : g.isCyclic c = true) (h : ∀ a, g.entriesOf (regionOf g.blocks.size c) ≠ [a]) :
    splitComponent split g c = split
      ((regionOf g.blocks.size c).setIfInBounds g.blocks.size false)
      (g.insertDispatcher (g.entriesOf (regionOf g.blocks.size c))).2 := by
  simp only [splitComponent, hc, Bool.not_true, Bool.false_eq_true, if_false]
  rfl

/-- A region of reached blocks, fewer than a bound of which lie on cycles inside it. -/
structure Bounded (g : Graph B C) (region : Array Bool) (fuel : Nat) : Prop where
  reached : ∀ x, region.getD x false = true → x < g.blocks.size ∧ g.Leads g.entry x
  few : ∃ K : List Nat, K.length < fuel ∧ ∀ x, TransGen (g.EdgeIn region) x x → x ∈ K

/-- A way of splitting regions that works for all regions with few blocks on cycles. -/
def Splits (split : Array Bool → Graph B C → Graph B C) (fuel : Nat) : Prop :=
  ∀ (region : Array Bool) (g : Graph B C), g.Rooted → g.Bounded region fuel →
    ∃ A, (∀ x, x < g.blocks.size → (A x ↔ region.getD x false = true)) ∧
      Carved g A (split region g)

/-- A single block without an exit to itself is on no cycle. -/
lemma reducible_of_not_cyclic {c : List Nat} (h : g.isCyclic c = false) :
    g.Reducible (· ∈ c) := by
  intro X hX hXc
  obtain ⟨x, hx⟩ := hX.nonempty
  match c, h with
  | [], _ => cases hXc x hx
  | [a], h =>
    obtain ⟨y, ⟨hx', hy, he⟩, _⟩ := TransGen.head'_iff.1 (hX.leads x x hx hx)
    obtain rfl := List.mem_singleton.1 (hXc x hx)
    obtain rfl := List.mem_singleton.1 (hXc y hy)
    exact absurd he (by simpa [isCyclic, Edge] using h)

section

variable {c : List Nat} (hc : ∀ x ∈ c, x < g.blocks.size)
include hc

/-- What is left of a component without one of its blocks. -/
lemma getD_cut {a x : Nat} :
    ((regionOf g.blocks.size c).setIfInBounds a false).getD x false = true ↔ x ∈ c ∧ x ≠ a := by
  rw [getD_setIfInBounds, size_regionOf]
  split
  · next hax => simp [hax.1]
  · next hax =>
    rw [getD_regionOf]
    refine ⟨fun hx => ⟨hx.1, ?_⟩, fun hx => ⟨hx.1, hc x hx.1⟩⟩
    rintro rfl
    exact hax ⟨rfl, hx.2⟩

variable (hentry : g.entry ∉ c)
include hentry

/-- A component without the entry of the graph is entered where exits lead from outside. -/
lemma mem_entriesOf_component {x : Nat} : x ∈ g.entriesOf (regionOf g.blocks.size c) ↔
    x ∈ c ∧ ∃ u, u ∉ c ∧ g.Edge u x := by
  have hregion : ∀ u, u < g.blocks.size →
      ((regionOf g.blocks.size c).getD u false = false ↔ u ∉ c) := by
    intro u hu
    rw [← Bool.not_eq_true, getD_regionOf]
    exact not_congr (and_iff_left hu)
  rw [mem_entriesOf, getD_regionOf]
  constructor
  · rintro ⟨_, hx, rfl | ⟨u, hu, he⟩⟩
    · exact absurd hx.1 hentry
    · exact ⟨hx.1, u, (hregion u he.lt).1 hu, he⟩
  · rintro ⟨hx, u, hu, he⟩
    exact ⟨hc x hx, ⟨hx, hc x hx⟩, .inr ⟨u, (hregion u he.lt).2 hu, he⟩⟩

/-- A component that is reached is entered somewhere. -/
lemma exists_mem_entriesOf {x : Nat} (hx : x ∈ c) (hlead : g.Leads g.entry x) :
    ∃ e, e ∈ g.entriesOf (regionOf g.blocks.size c) := by
  obtain ⟨u, w, hu, hw, he⟩ := exists_entering (S := (· ∈ c)) hlead hentry hx
  exact ⟨w, (mem_entriesOf_component hc hentry).2 ⟨hw, u, hu, he⟩⟩

end

/-- A component that can be split: its blocks are reached, and if it is a cycle they are few. -/
structure Splittable (g : Graph B C) (fuel : Nat) (c : List Nat) : Prop extends g.Rooted where
  reached : ∀ x ∈ c, x < g.blocks.size ∧ g.Leads g.entry x
  edge : g.isCyclic c = true → ∀ x ∈ c, ∃ u, g.Edge u x
  few : g.isCyclic c = true → c.length < fuel + 1

namespace Splittable

variable {fuel : Nat} {c : List Nat} {a x : Nat} (h : g.Splittable fuel c)
include h

lemma lt : ∀ x ∈ c, x < g.blocks.size := fun x hx => (h.reached x hx).1

lemma getD_cut : ((regionOf g.blocks.size c).setIfInBounds a false).getD x false = true ↔
    x ∈ c ∧ x ≠ a := Graph.getD_cut h.lt

/-- The dispatcher of a component is not one of its blocks. -/
lemma getD_cut_dispatcher :
    ((regionOf g.blocks.size c).setIfInBounds g.blocks.size false).getD x false = true ↔ x ∈ c := by
  rw [h.getD_cut]
  exact ⟨fun hx => hx.1, fun hx => ⟨hx, (h.lt x hx).ne⟩⟩

variable (hcyc : g.isCyclic c = true)
include hcyc

lemma entry_not_mem : g.entry ∉ c := by
  intro he
  obtain ⟨u, hu⟩ := h.edge hcyc _ he
  exact h.start u hu

lemma mem_entries : x ∈ g.entriesOf (regionOf g.blocks.size c) ↔ x ∈ c ∧ ∃ u, u ∉ c ∧ g.Edge u x :=
  mem_entriesOf_component h.lt (h.entry_not_mem hcyc)

lemma exists_entry : ∃ e, e ∈ g.entriesOf (regionOf g.blocks.size c) := by
  obtain ⟨y, hy⟩ : ∃ y, y ∈ c := List.exists_mem_of_ne_nil c (by rintro rfl; cases hcyc)
  exact exists_mem_entriesOf h.lt (h.entry_not_mem hcyc) hy (h.reached y hy).2

lemma entries_lt : ∀ e ∈ g.entriesOf (regionOf g.blocks.size c), e < g.blocks.size :=
  fun e he => h.lt e ((h.mem_entries hcyc).1 he).1

/-- What is left of a cycle without its only entry is smaller. -/
lemma bounded_single (hE : g.entriesOf (regionOf g.blocks.size c) = [a]) :
    g.Bounded ((regionOf g.blocks.size c).setIfInBounds a false) fuel where
  reached x hx := h.reached x (h.getD_cut.1 hx).1
  few := by
    have ha : a ∈ c := ((h.mem_entries hcyc).1 (hE ▸ List.mem_cons_self)).1
    have hpos : 0 < c.length := List.length_pos_of_mem ha
    have hlen := h.few hcyc
    refine ⟨c.erase a, ?_, fun x hx => ?_⟩
    · rw [List.length_erase_of_mem ha]
      omega
    · obtain ⟨y, he, _⟩ := TransGen.head'_iff.1 hx
      obtain ⟨hxc, hxa⟩ := h.getD_cut.1 he.1
      exact (List.mem_erase_of_ne hxa).2 hxc

lemma rooted_dispatcher :
    (g.insertDispatcher (g.entriesOf (regionOf g.blocks.size c))).2.Rooted :=
  rooted_insertDispatcher h.toRooted (h.entries_lt hcyc) fun he =>
    h.entry_not_mem hcyc ((h.mem_entries hcyc).1 he).1

/-- The entries of a cycle have become targets of its dispatcher alone, so they lie on no cycle of
what is left. -/
lemma not_entry_of_cycle {x : Nat}
    (hx : TransGen ((g.insertDispatcher (g.entriesOf (regionOf g.blocks.size c))).2.EdgeIn
      ((regionOf g.blocks.size c).setIfInBounds g.blocks.size false)) x x) :
    x ∈ c ∧ x ∉ g.entriesOf (regionOf g.blocks.size c) := by
  obtain ⟨u, _, hu, hx, he⟩ := TransGen.tail'_iff.1 hx
  rw [h.getD_cut_dispatcher] at hu hx
  refine ⟨hx, ?_⟩
  rcases (edge_insertDispatcher (h.entries_lt hcyc)).1 he with ⟨_, ⟨hx', _⟩ | ⟨hx', _⟩⟩ | ⟨hu', _⟩
  · exact hx'
  · exact absurd hx' (h.lt x hx).ne
  · exact absurd hu' (h.lt u hu).ne

lemma bounded_several :
    (g.insertDispatcher (g.entriesOf (regionOf g.blocks.size c))).2.Bounded
      ((regionOf g.blocks.size c).setIfInBounds g.blocks.size false) fuel where
  reached x hx := by
    obtain ⟨hlt, hlead⟩ := h.reached x (h.getD_cut_dispatcher.1 hx)
    rw [size_insertDispatcher]
    exact ⟨Nat.lt_succ_of_lt hlt, leads_insertDispatcher (h.entries_lt hcyc) hlead⟩
  few := by
    obtain ⟨e, he⟩ := h.exists_entry hcyc
    have hlen := h.few hcyc
    refine ⟨c.filter (· ∉ g.entriesOf (regionOf g.blocks.size c)), ?_, fun x hx => ?_⟩
    · have : (c.filter (· ∉ g.entriesOf (regionOf g.blocks.size c))).length < c.length :=
        List.length_filter_lt_length_iff_exists.2
          ⟨e, ((h.mem_entries hcyc).1 he).1, by simpa using he⟩
      omega
    · obtain ⟨hxc, hxe⟩ := h.not_entry_of_cycle hcyc hx
      exact List.mem_filter.2 ⟨hxc, by simpa using hxe⟩

end Splittable

/-- One component is split, if splitting works for what is left of it. -/
lemma splitComponent_carved {split : Array Bool → Graph B C → Graph B C} {fuel : Nat}
    (hsplit : Splits split fuel) {c : List Nat} (h : g.Splittable fuel c) :
    ∃ A, (∀ x, x < g.blocks.size → (A x ↔ x ∈ c)) ∧ Carved g A (splitComponent split g c) := by
  cases hcyc : g.isCyclic c with
  | false =>
    simp only [splitComponent, hcyc, Bool.not_false, if_true]
    exact ⟨(· ∈ c), fun _ _ => Iff.rfl, .same h.lt (reducible_of_not_cyclic hcyc)⟩
  | true =>
    by_cases hE : ∃ a, g.entriesOf (regionOf g.blocks.size c) = [a]
    · obtain ⟨a, hE⟩ := hE
      rw [splitComponent_single hcyc hE]
      have ha : a ∈ c := ((h.mem_entries hcyc).1 (hE ▸ List.mem_cons_self)).1
      obtain ⟨A, hA, hcarved⟩ := hsplit _ g h.toRooted (h.bounded_single hcyc hE)
      refine ⟨fun x => A x ∨ x = a, fun x hx => ?_, hcarved.single (c := (· ∈ c)) h.toRooted
        (fun x hx => (hA x hx).trans h.getD_cut) (h.lt a ha) (h.edge hcyc) fun u w he hu hw => ?_⟩
      · change A x ∨ x = a ↔ x ∈ c
        rw [hA x hx, h.getD_cut]
        constructor
        · rintro (hx | rfl)
          · exact hx.1
          · exact ha
        · intro hx
          by_cases hxa : x = a
          · exact .inr hxa
          · exact .inl ⟨hx, hxa⟩
      · have := (h.mem_entries hcyc).2 ⟨hw, u, hu, he⟩
        rw [hE] at this
        exact List.mem_singleton.1 this
    · rw [splitComponent_several hcyc fun a ha => hE ⟨a, ha⟩]
      obtain ⟨A, hA, hcarved⟩ := hsplit _ _ (h.rooted_dispatcher hcyc) (h.bounded_several hcyc)
      have hA' : ∀ x, x < g.blocks.size + 1 → (A x ↔ x ∈ c) := by
        intro x hx
        rw [hA x (by rwa [size_insertDispatcher]), h.getD_cut_dispatcher]
      refine ⟨fun x => A x ∨ x = g.blocks.size, fun x hx => ?_, hcarved.dispatch (c := (· ∈ c))
        h.toRooted hA' h.lt (fun x => h.mem_entries hcyc) (h.entry_not_mem hcyc)⟩
      change A x ∨ x = g.blocks.size ↔ x ∈ c
      rw [hA' x (Nat.lt_succ_of_lt hx)]
      exact ⟨fun h => h.resolve_right hx.ne, .inl⟩

/-- The blocks of a cyclic component lead to themselves. -/
lemma Parted.cyclic {region : Array Bool} {cs : List (List Nat)} (h : g.Parted region cs)
    {c : List Nat} (hc : c ∈ cs) (hsame : ∀ x ∈ c, g'.Edge x x → g.Edge x x)
    (hcyc : g'.isCyclic c = true) : ∀ x ∈ c, TransGen (g.EdgeIn region) x x := by
  intro x hx
  have hr := ((h.mem x).1 ⟨c, hc, hx⟩).2
  match c, hc, hcyc, hx, hsame with
  | [a], _, hcyc, hx, hsame =>
    obtain rfl := List.mem_singleton.1 hx
    exact .single ⟨hr, hr, hsame x hx (by simpa [isCyclic, Edge] using hcyc)⟩
  | a :: b :: rest, hc, _, hx, _ =>
    have hab : a ≠ b := by
      have := h.nodup _ hc
      rw [List.nodup_cons, List.mem_cons, not_or] at this
      exact this.1.1
    obtain ⟨y, hy, hxy⟩ : ∃ y ∈ a :: b :: rest, x ≠ y := by
      by_cases hxa : x = a
      · exact ⟨b, by simp, hxa ▸ hab⟩
      · exact ⟨a, by simp, hxa⟩
    rcases Relation.reflTransGen_iff_eq_or_transGen.1 (h.strong _ hc x hx y hy) with he | ht
    · exact absurd he.symm hxy
    · exact ht.trans_left (h.strong _ hc y hy x hx)

section

variable {fuel : Nat} {region : Array Bool} {cs pre post : List (List Nat)} {c : List Nat}
  {A : Nat → Prop} {g₁ : Graph B C}

/-- A block of a component lies in no earlier one. -/
lemma Parted.not_mem_earlier (hcs : g.Parted region cs) (heq : cs = pre ++ c :: post) {x : Nat}
    (hx : x ∈ c) : ¬ ∃ c' ∈ pre, x ∈ c' := by
  rintro ⟨c', hc', hx'⟩
  have hapart := hcs.disjoint
  rw [heq, List.pairwise_append] at hapart
  exact hapart.2.2 c' hc' c List.mem_cons_self hx' hx

/-- Splitting the components before it leaves a component as it is. -/
lemma Parted.not_carved (hcs : g.Parted region cs) (heq : cs = pre ++ c :: post)
    (hA : ∀ x, x < g.blocks.size → (A x ↔ ∃ c ∈ pre, x ∈ c)) {x : Nat} (hx : x ∈ c) : ¬ A x := by
  have hlt := ((hcs.mem x).1 ⟨c, heq ▸ List.mem_append_right _ List.mem_cons_self, hx⟩).1
  rw [hA x hlt]
  exact hcs.not_mem_earlier heq hx

/-- When the components before it have been split, a component is a cycle only if its blocks lie on
cycles of the region. -/
lemma Parted.cyclic_of_carved (hcs : g.Parted region cs) (heq : cs = pre ++ c :: post)
    (hA : ∀ x, x < g.blocks.size → (A x ↔ ∃ c ∈ pre, x ∈ c)) (h : Carved g A g₁)
    (hcyc : g₁.isCyclic c = true) : ∀ x ∈ c, TransGen (g.EdgeIn region) x x :=
  hcs.cyclic (heq ▸ List.mem_append_right _ List.mem_cons_self)
    (fun x hx he => (h.frame x x (hcs.not_carved heq hA hx)).1 he) hcyc

/-- The next component can be split. -/
lemma Parted.splittable (hcs : g.Parted region cs) (heq : cs = pre ++ c :: post)
    (hA : ∀ x, x < g.blocks.size → (A x ↔ ∃ c ∈ pre, x ∈ c)) (h : Carved g A g₁) (hg : g.Rooted)
    (hb : g.Bounded region (fuel + 1)) : g₁.Splittable fuel c := by
  have hc : c ∈ cs := heq ▸ List.mem_append_right _ List.mem_cons_self
  refine ⟨h.rooted hg, fun x hx => ?_, fun hcyc x hx => ?_, fun hcyc => ?_⟩
  · obtain ⟨hlt, hregion⟩ := (hcs.mem x).1 ⟨c, hc, hx⟩
    refine ⟨hlt.trans_le h.size, ?_⟩
    rw [h.entry]
    exact h.leads_of_leads (hb.reached x hregion).2
  · obtain ⟨u, _, he⟩ := TransGen.tail'_iff.1 (hcs.cyclic_of_carved heq hA h hcyc x hx)
    exact ⟨u, (h.frame u x (hcs.not_carved heq hA hx)).2 he.2.2⟩
  · obtain ⟨K, hlen, hK⟩ := hb.few
    exact lt_of_le_of_lt (List.Nodup.subperm (hcs.nodup c hc) fun x hx =>
      hK x (hcs.cyclic_of_carved heq hA h hcyc x hx)).length_le hlen

/-- One more component has been split. -/
lemma Parted.carved_next (hcs : g.Parted region cs) (heq : cs = pre ++ c :: post)
    (hA : ∀ x, x < g.blocks.size → (A x ↔ ∃ c ∈ pre, x ∈ c)) (h : Carved g A g₁) (hg : g.Rooted)
    {A₂ : Nat → Prop} {g₂ : Graph B C} (hA₂ : ∀ x, x < g₁.blocks.size → (A₂ x ↔ x ∈ c))
    (h₂ : Carved g₁ A₂ g₂) :
    (∀ x, x < g.blocks.size → (A x ∨ A₂ x ↔ ∃ c' ∈ pre ++ [c], x ∈ c')) ∧
      Carved g (fun x => A x ∨ A₂ x) g₂ := by
  have hc : c ∈ cs := heq ▸ List.mem_append_right _ List.mem_cons_self
  constructor
  · intro x hx
    rw [hA x hx, hA₂ x (hx.trans_le h.size)]
    simp only [List.mem_append, List.mem_singleton]
    grind
  · refine h.trans h₂ hg (fun x hx hx₂ => hcs.not_carved heq hA ((hA₂ x hx).1 hx₂)) ?_
    intro u w hu hw he
    have hwc := (hA₂ w ((hg.target he).trans_le h.size)).1 hw
    obtain ⟨c', hc', hu⟩ := (hA u he.lt).1 hu
    obtain ⟨pre₁, pre₂, rfl⟩ := List.append_of_mem hc'
    have hin : g.EdgeIn region u w := ⟨((hcs.mem u).1 ⟨c', by simp [heq], hu⟩).2,
      ((hcs.mem w).1 ⟨c, hc, hwc⟩).2, he⟩
    rcases hcs.back pre₁ c' (pre₂ ++ c :: post) (by rw [heq]; simp) u hu w hin with
      hw' | ⟨c'', hc'', hw'⟩
    · exact hcs.not_mem_earlier heq hwc ⟨c', hc', hw'⟩
    · exact hcs.not_mem_earlier heq hwc ⟨c'', List.mem_append_left _ hc'', hw'⟩

/-- The components of a region are split one after the other. -/
lemma foldl_splitComponent_carved {split : Array Bool → Graph B C → Graph B C}
    (hsplit : Splits split fuel) (hg : g.Rooted) (hcs : g.Parted region cs)
    (hb : g.Bounded region (fuel + 1)) (heq : cs = pre ++ post)
    (hA : ∀ x, x < g.blocks.size → (A x ↔ ∃ c ∈ pre, x ∈ c)) (h : Carved g A g₁) :
    ∃ A', (∀ x, x < g.blocks.size → (A' x ↔ ∃ c ∈ cs, x ∈ c)) ∧
      Carved g A' (post.foldl (splitComponent split) g₁) := by
  induction post generalizing pre A g₁ with
  | nil =>
    rw [List.append_nil] at heq
    exact ⟨A, heq ▸ hA, h⟩
  | cons c post ih =>
    obtain ⟨A₂, hA₂, h₂⟩ := splitComponent_carved hsplit (hcs.splittable heq hA h hg hb)
    obtain ⟨hA', h'⟩ := hcs.carved_next heq hA h hg hA₂ h₂
    exact ih (heq.trans (by rw [List.append_assoc]; rfl) : cs = (pre ++ [c]) ++ post) hA' h'

/-- Before any component is split, nothing has changed. -/
lemma carved_none : Carved g (fun _ => False) g := by
  refine .same (fun x h => h.elim) ?_
  rintro X hX hXA
  obtain ⟨x, hx⟩ := hX.nonempty
  exact (hXA x hx).elim

end

/-- Splitting works for every region, if the fuel exceeds the number of blocks on its cycles. -/
theorem splits_split (fuel : Nat) : Splits (B := B) (C := C) (split fuel) fuel := by
  induction fuel with
  | zero =>
    rintro region g _ ⟨_, K, hK, _⟩
    cases hK
  | succ fuel ih =>
    intro region g hg hb
    have hcs := parted_components hg.target region
    obtain ⟨A, hA, h⟩ := foldl_splitComponent_carved ih hg hcs hb (List.nil_append _).symm
      (by simp) carved_none
    refine ⟨A, fun x hx => ?_, by rw [split_succ]; exact h⟩
    rw [hA x hx, hcs.mem]
    exact ⟨fun h => h.2, fun h => ⟨hx, h⟩⟩

end Dynarec.Flow.Graph
