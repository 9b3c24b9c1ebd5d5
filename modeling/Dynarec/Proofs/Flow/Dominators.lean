import Mathlib.Data.List.Chain
import Dynarec.Proofs.Flow.Order
import Dynarec.Proofs.Flow.Split

/-!
# Dominators

A block dominates another when every path from the entry to the other passes it. In a graph in which
every cycle has a single entry, an exit to a block that is no later in reverse postorder leads to a
dominator of its source.
-/

namespace Dynarec.Flow.Graph

open Relation (ReflTransGen TransGen)

variable {B C : Type} {g : Graph B C} {a b c : Nat}

/-- A block can be reached from the entry without passing another one. -/
def Avoids (g : Graph B C) (a b : Nat) : Prop :=
  a ≠ g.entry ∧ ReflTransGen (fun u w => g.Edge u w ∧ w ≠ a) g.entry b

/-- Every path from the entry to `b` passes `a`. -/
def Dom (g : Graph B C) (a b : Nat) : Prop := ¬ g.Avoids a b

lemma Avoids.leads (h : g.Avoids a b) : g.Leads g.entry b :=
  ReflTransGen.mono (fun _ _ he => he.1) _ _ h.2

lemma Avoids.ne (h : g.Avoids a b) : b ≠ a := by
  rcases h.2.cases_tail with rfl | ⟨u, _, he⟩
  · exact h.1.symm
  · exact he.2

lemma Avoids.tail (h : g.Avoids a b) (he : g.Edge b c) (hc : c ≠ a) : g.Avoids a c :=
  ⟨h.1, h.2.tail ⟨he, hc⟩⟩

/-- Every block dominates itself. -/
lemma Dom.refl (g : Graph B C) (a : Nat) : g.Dom a a := fun h => h.ne rfl

/-- The entry dominates every block. -/
lemma dom_entry (g : Graph B C) (b : Nat) : g.Dom g.entry b := fun h => h.1 rfl

/-- Only the entry dominates the entry. -/
lemma Dom.eq_entry (h : g.Dom a g.entry) : a = g.entry := by
  by_contra hne
  exact h ⟨hne, .refl⟩

/-- A path either avoids a block or reaches it. -/
lemma avoids_or {R : Nat → Nat → Prop} {x : Nat} (h : ReflTransGen R x b) :
    ReflTransGen (fun u w => R u w ∧ w ≠ a) x b ∨ ReflTransGen R x a := by
  induction h with
  | refl => exact .inl .refl
  | @tail u w hu he ih =>
    by_cases hw : w = a
    · exact .inr (hw ▸ hu.tail he)
    · exact ih.imp_left fun h => h.tail ⟨he, hw⟩

lemma Dom.trans (h : g.Dom a b) (h' : g.Dom b c) : g.Dom a c := by
  intro hac
  by_cases hb : b = g.entry
  · exact h (hb ▸ ⟨hac.1, .refl⟩)
  · rcases avoids_or (a := b) hac.2 with hbc | hab
    · exact h' ⟨hb, ReflTransGen.mono (fun _ _ he => ⟨he.1.1, he.2⟩) _ _ hbc⟩
    · exact h ⟨hac.1, hab⟩

/-- A dominator of a block dominates the sources of exits to it. -/
lemma Dom.source (h : g.Dom a c) (hne : a ≠ c) (he : g.Edge b c) : g.Dom a b :=
  fun hab => h (hab.tail he hne.symm)

/-- A reachable block is reached last from a block that it does not dominate. -/
lemma exists_source (hb : g.Leads g.entry b) (hne : b ≠ g.entry) :
    ∃ u, g.Leads g.entry u ∧ g.Edge u b ∧ ¬ g.Dom b u := by
  have h : ∀ x, g.Leads g.entry x → ¬ g.Avoids b x →
      ∃ u, g.Leads g.entry u ∧ g.Edge u b ∧ ¬ g.Dom b u := by
    intro x hx
    induction hx with
    | refl => exact fun hn => absurd ⟨hne, .refl⟩ hn
    | @tail u w hu he ih =>
      intro hn
      by_cases hub : g.Avoids b u
      · by_cases hwb : w = b
        · exact ⟨u, hu, hwb ▸ he, not_not_intro hub⟩
        · exact absurd (hub.tail he hwb) hn
      · exact ih hub
  exact h b hb fun h => h.ne rfl

/-- A block that is reached without passing another one is reached last from a block that it does
not dominate and that is reached without passing the other one either. -/
lemma Avoids.exists_source (h : g.Avoids a b) (hne : b ≠ g.entry) :
    ∃ u, g.Avoids a u ∧ g.Edge u b ∧ ¬ g.Dom b u := by
  obtain ⟨ha, h⟩ := h
  have key : ∀ x, ReflTransGen (fun u w => g.Edge u w ∧ w ≠ a) g.entry x → ¬ g.Avoids b x →
      ∃ u, g.Avoids a u ∧ g.Edge u b ∧ ¬ g.Dom b u := by
    intro x hx
    induction hx with
    | refl => exact fun hn => absurd ⟨hne, .refl⟩ hn
    | @tail u w hu he ih =>
      intro hn
      by_cases hub : g.Avoids b u
      · by_cases hwb : w = b
        · exact ⟨u, ⟨ha, hu⟩, hwb ▸ he.1, not_not_intro hub⟩
        · exact absurd (hub.tail he.1 hwb) hn
      · exact ih hub
  exact key b h fun h => h.ne rfl

/-- Of two dominators of a reachable block one dominates the other. -/
lemma Dom.total (hc : g.Leads g.entry c) (ha : g.Dom a c) (hb : g.Dom b c) :
    g.Dom a b ∨ g.Dom b a := by
  by_contra hn
  rw [not_or] at hn
  obtain ⟨hab, hba⟩ := hn
  rw [Dom, not_not] at hab hba
  -- after the last of the two on a path to `c`, neither is met any more
  have key : ∀ x, g.Leads g.entry x → g.Avoids a x ∨ g.Avoids b x := by
    intro x hx
    induction hx with
    | refl => exact .inl ⟨hab.1, .refl⟩
    | @tail u w _ he ih =>
      by_cases hwa : w = a
      · exact .inr (hwa ▸ hba)
      · by_cases hwb : w = b
        · exact .inl (hwb ▸ hab)
        · exact ih.imp (fun h => h.tail he hwa) fun h => h.tail he hwb
  exact (key c hc).elim ha hb

/-! ### Dominators and order -/

/-- The blocks of a path lead to its end. -/
lemma leads_to_head {X : Nat → Prop} {l : List Nat} (h : l.IsChain fun a b => g.Edge b a)
    (hX : ∀ x ∈ l, X x) {u : Nat} (hu : l.head? = some u) :
    ∀ x ∈ l, ReflTransGen (fun a b => X a ∧ X b ∧ g.Edge a b) x u := by
  induction l generalizing u with
  | nil => simp
  | cons a l ih =>
    cases hu
    intro x hx
    rcases List.mem_cons.1 hx with rfl | hx
    · exact .refl
    · cases l with
      | nil => cases hx
      | cons b l =>
        rw [List.isChain_cons_cons] at h
        exact (ih h.2 (fun y hy => hX y (List.mem_cons_of_mem _ hy)) rfl x hx).tail
          ⟨hX b (by simp), hX a (by simp), h.1⟩

/-- The start of a path leads to its blocks. -/
lemma leads_from_last {X : Nat → Prop} {l : List Nat} (h : l.IsChain fun a b => g.Edge b a)
    (hX : ∀ x ∈ l, X x) {w : Nat} (hw : l.getLast? = some w) :
    ∀ x ∈ l, ReflTransGen (fun a b => X a ∧ X b ∧ g.Edge a b) w x := by
  induction l with
  | nil => simp
  | cons a l ih =>
    intro x hx
    cases l with
    | nil =>
      cases hw
      obtain rfl := List.mem_singleton.1 hx
      exact .refl
    | cons b l =>
      rw [List.isChain_cons_cons] at h
      rw [List.getLast?_cons_cons] at hw
      have ih := ih h.2 (fun y hy => hX y (List.mem_cons_of_mem _ hy)) hw
      rcases List.mem_cons.1 hx with rfl | hx
      · exact (ih b (by simp)).tail ⟨hX b (by simp), hX x (by simp), h.1⟩
      · exact ih x hx

/-- A path with an exit back to its start is a cycle. -/
lemma strong_of_path {l : List Nat} (h : l.IsChain fun a b => g.Edge b a) {u w : Nat}
    (hu : l.head? = some u) (hw : l.getLast? = some w) (he : g.Edge u w) : g.Strong (· ∈ l) where
  nonempty := ⟨u, List.mem_of_head? hu⟩
  leads x y hx hy := by
    have h₁ := leads_to_head (X := (· ∈ l)) h (fun _ h => h) hu x hx
    have h₂ := leads_from_last (X := (· ∈ l)) h (fun _ h => h) hw y hy
    exact TransGen.trans_right h₁
      (TransGen.head' ⟨List.mem_of_head? hu, List.mem_of_getLast? hw, he⟩ h₂)

/-- A path into a set from outside enters it at one of its blocks. -/
lemma exists_entering_of_path {S : Nat → Prop} {l : List Nat}
    (h : l.IsChain fun a b => g.Edge b a) {w e : Nat} (hw : l.head? = some w)
    (he : l.getLast? = some e) (hSw : S w) (hSe : ¬ S e) :
    ∃ a b, b ∈ l ∧ g.Edge a b ∧ ¬ S a ∧ S b := by
  induction l generalizing w with
  | nil => cases hw
  | cons a l ih =>
    cases hw
    cases l with
    | nil =>
      cases he
      exact absurd hSw hSe
    | cons b l =>
      rw [List.isChain_cons_cons] at h
      rw [List.getLast?_cons_cons] at he
      by_cases hb : S b
      · obtain ⟨x, y, hy, hxy⟩ := ih h.2 rfl he hb
        exact ⟨x, y, List.mem_cons_of_mem _ hy, hxy⟩
      · exact ⟨b, a, List.mem_cons_self, h.1, hb, hSw⟩

section

variable {order : List Nat}

/-- An exit to a block that is no later in the order leads back to a path to its source. -/
lemma Ordered.exists_simplePath (h : g.Ordered order) {u w : Nat} (hu : u ∈ order)
    (he : g.Edge u w) (hle : order.idxOf w ≤ order.idxOf u) :
    ∃ p, g.SimplePath p u ∧ w ∈ p := by
  obtain ⟨pre, post, heq⟩ := List.append_of_mem hu
  refine (h.edge pre u post heq w he).resolve_left fun hw => ?_
  have hnodup := h.nodup
  rw [heq, List.nodup_append] at hnodup
  have hupre : u ∉ pre := fun hm => hnodup.2.2 u hm u List.mem_cons_self rfl
  have hwpre : w ∉ pre := fun hm => hnodup.2.2 w hm w (List.mem_cons_of_mem _ hw) rfl
  have hne : u ≠ w := by
    rintro rfl
    exact (List.nodup_cons.1 hnodup.2.1).1 hw
  rw [heq, List.idxOf_append_of_notMem hupre, List.idxOf_append_of_notMem hwpre,
    List.idxOf_cons_self, List.idxOf_cons_ne _ hne] at hle
  omega

/-- In a graph whose cycles have single entries, an exit that leads back to a path to its source
leads to a dominator of the source. -/
lemma Reducible.dom_of_simplePath (hred : g.Reducible fun _ => True) (hg : g.Rooted)
    {p : List Nat} {u w : Nat} (hp : g.SimplePath p u) (hwp : w ∈ p) (he : g.Edge u w) :
    g.Dom w u := by
  obtain ⟨p₁, p₂, rfl⟩ := List.append_of_mem hwp
  obtain ⟨hnodup, hchain, hhead, hlast⟩ := hp
  -- the path from `w` to `u` and the exit back are a cycle with a single entry `hd`
  have hX : g.Strong (· ∈ p₁ ++ [w]) := by
    rw [List.append_cons] at hchain hhead
    refine strong_of_path hchain.left_of_append ?_ List.getLast?_concat he
    rw [List.head?_append] at hhead
    simpa using hhead
  obtain ⟨S, hd, hXS, -, hXhd, hS⟩ := hred _ hX fun _ _ => trivial
  have hentry : ¬ S g.entry := by
    intro hSe
    obtain ⟨y, -, -, -, hy⟩ := TransGen.tail'_iff.1 (hX.leads hd hd hXhd hXhd)
    rw [← hS.entry hSe] at hy
    exact hg.start y hy
  have hlast' : (w :: p₂).getLast? = some g.entry := by
    rwa [List.getLast?_append_of_ne_nil _ (by simp)] at hlast
  obtain ⟨a, b, hb, hab, hSa, hSb⟩ := exists_entering_of_path hchain.right_of_append rfl hlast'
    (hXS w (by simp)) hentry
  obtain rfl := hS.edge a b hab hSa hSb
  have hbw : b = w := by
    rcases List.mem_append.1 hXhd with hb₁ | hb₁
    · exact absurd rfl ((List.nodup_append.1 hnodup).2.2 b hb₁ b hb)
    · exact List.mem_singleton.1 hb₁
  subst hbw
  intro hav
  have hSu : S u := hXS u (by
    rw [List.append_cons, List.head?_append] at hhead
    exact List.mem_of_head? (by simpa using hhead))
  obtain ⟨x, y, hSx, hSy, hxy, hyb⟩ := exists_entering (S := S) hav.2 hentry hSu
  exact hyb (hS.edge x y hxy hSx hSy)

/-- An exit to a block that is no later in the order leads to a dominator of its source. -/
lemma Ordered.dom_of_retreating (h : g.Ordered order) (hg : g.Rooted)
    (hred : g.Reducible fun _ => True) {u w : Nat} (hu : u ∈ order) (he : g.Edge u w)
    (hle : order.idxOf w ≤ order.idxOf u) : g.Dom w u := by
  obtain ⟨p, hp, hwp⟩ := h.exists_simplePath hu he hle
  exact hred.dom_of_simplePath hg hp hwp he

/-- The position of a member of a list without repetition is the number of members before it. -/
lemma idxOf_append_cons {pre post : List Nat} {x : Nat} (h : (pre ++ x :: post).Nodup) :
    (pre ++ x :: post).idxOf x = pre.length := by
  have hx : x ∉ pre := fun hm => (List.nodup_append.1 h).2.2 x hm x List.mem_cons_self rfl
  rw [List.idxOf_append_of_notMem hx, List.idxOf_cons_self, Nat.add_zero]

/-- A graph with an order of its reachable blocks. -/
structure Numbered (g : Graph B C) (order : List Nat) : Prop extends g.InRange where
  ordered : g.Ordered order

namespace Numbered

variable (h : g.Numbered order)
include h

lemma mem_of_edge {u w : Nat} (hu : u ∈ order) (he : g.Edge u w) : w ∈ order :=
  (h.ordered.mem w).2 (((h.ordered.mem u).1 hu).tail he)

lemma lt {u : Nat} (hu : u ∈ order) : u < g.blocks.size :=
  Leads.lt h.toInRange h.entry ((h.ordered.mem u).1 hu)

lemma entry_mem : g.entry ∈ order := (h.ordered.mem _).2 .refl

lemma length_le : order.length ≤ g.blocks.size := by
  have := (List.Nodup.subperm h.ordered.nodup fun x hx => List.mem_range.2 (h.lt hx)).length_le
  simpa using this

/-- The order starts with the entry, which is not listed again. -/
lemma exists_rest : ∃ rest, order = g.entry :: rest ∧ ∀ b, b ∈ rest ↔ b ∈ order ∧ b ≠ g.entry := by
  obtain ⟨rest, rfl⟩ := List.head?_eq_some_iff.1 h.ordered.head
  have hnotin := (List.nodup_cons.1 h.ordered.nodup).1
  refine ⟨rest, rfl, fun b => ⟨fun hb => ⟨List.mem_cons_of_mem _ hb, ?_⟩, fun hb =>
    (List.mem_cons.1 hb.1).resolve_left hb.2⟩⟩
  rintro rfl
  exact hnotin hb

lemma idxOf_eq_zero (hb : b ∈ order) : order.idxOf b = 0 ↔ b = g.entry := by
  obtain ⟨rest, hrest, -⟩ := h.exists_rest
  have hzero : order.idxOf g.entry = 0 := by rw [hrest, List.idxOf_cons_self]
  exact ⟨fun he => (List.idxOf_inj hb).1 (he.trans hzero.symm), fun he => he ▸ hzero⟩

/-- Every block but the entry is reached from an earlier one. -/
lemma exists_earlier (hb : b ∈ order) (hne : b ≠ g.entry) :
    ∃ u ∈ order, g.Edge u b ∧ order.idxOf u < order.idxOf b := by
  obtain ⟨pre, post, heq⟩ := List.append_of_mem hb
  obtain ⟨u, hu, he⟩ := h.ordered.source pre b post heq hne
  refine ⟨u, heq ▸ List.mem_append_left _ hu, he, ?_⟩
  rw [heq, idxOf_append_cons (heq ▸ h.ordered.nodup), List.idxOf_append_of_mem hu]
  exact List.idxOf_lt_length_iff.2 hu

/-- A dominator of another block comes before it. -/
lemma idxOf_lt (hb : b ∈ order) (hd : g.Dom a b) (hne : a ≠ b) :
    a ∈ order ∧ order.idxOf a < order.idxOf b := by
  induction hk : order.idxOf b using Nat.strong_induction_on generalizing b with
  | h k ih =>
    subst hk
    by_cases hbe : b = g.entry
    · subst hbe
      exact absurd hd.eq_entry hne
    · obtain ⟨u, hu, he, hlt⟩ := h.exists_earlier hb hbe
      have hdu := hd.source hne he
      by_cases hau : a = u
      · exact ⟨hau ▸ hu, hau ▸ hlt⟩
      · obtain ⟨ha, hlt'⟩ := ih _ hlt hu hdu hau rfl
        exact ⟨ha, hlt'.trans hlt⟩

lemma idxOf_le (hb : b ∈ order) (hd : g.Dom a b) : order.idxOf a ≤ order.idxOf b := by
  by_cases hne : a = b
  · rw [hne]
  · exact (h.idxOf_lt hb hd hne).2.le

lemma dom_antisymm (hb : b ∈ order) (hab : g.Dom a b) (hba : g.Dom b a) : a = b := by
  by_contra hne
  obtain ⟨ha, hlt⟩ := h.idxOf_lt hb hab hne
  exact absurd (h.idxOf_le ha hba) (Nat.not_le_of_lt hlt)

end Numbered

/-- A graph that is laid out, with an order of its reachable blocks. -/
structure Laid (g : Graph B C) (order : List Nat) : Prop extends g.Rooted, g.Numbered order where
  reducible : g.Reducible fun _ => True

namespace Laid

variable (h : g.Laid order)
include h

lemma dom_of_retreating {u w : Nat} (hu : u ∈ order) (he : g.Edge u w)
    (hle : order.idxOf w ≤ order.idxOf u) : g.Dom w u :=
  h.ordered.dom_of_retreating h.toRooted h.reducible hu he hle

/-- What dominates a block other than itself is what dominates the sources of the exits to it, as
long as those from earlier blocks are among them. -/
lemma dom_iff_sources (hb : b ∈ order) (hne : b ≠ g.entry) {Q : Nat → Prop}
    (hQ : ∀ u, Q u → u ∈ order ∧ g.Edge u b)
    (hearly : ∀ u ∈ order, g.Edge u b → order.idxOf u < order.idxOf b → Q u) :
    (∀ u, Q u → g.Dom a u) ↔ g.Dom a b ∧ a ≠ b := by
  constructor
  · intro hall
    refine ⟨fun hav => ?_, ?_⟩
    · obtain ⟨u, hu, he, hn⟩ := hav.exists_source hne
      have huo := (h.ordered.mem u).2 hu.leads
      refine hall u (hearly u huo he (Nat.lt_of_not_le fun hle => ?_)) hu
      exact hn (h.dom_of_retreating huo he hle)
    · rintro rfl
      obtain ⟨u, hu, he, hlt⟩ := h.exists_earlier hb hne
      exact absurd (h.idxOf_le hu (hall u (hearly u hu he hlt))) (Nat.not_le_of_lt hlt)
  · rintro ⟨hd, hne⟩ u hu
    exact hd.source hne (hQ u hu).2

end Laid

end

end Dynarec.Flow.Graph
