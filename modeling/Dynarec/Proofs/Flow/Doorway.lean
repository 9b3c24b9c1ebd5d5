import Dynarec.Proofs.Flow.Cycles

/-!
# A dispatcher before the entries of a cycle

When all exits to the blocks at which a cycle is entered are led through one new block, that block
becomes the entry of the cycle. The levels of the graph stay: up to that of the cycle the new block
lies on the cycles of the blocks that it leads to, and above it nothing leads to it. So an exit that
is led through the new block leads back if it did before, and going on from the new block never does.
-/

namespace Dynarec.Flow

open Relation (ReflTransGen TransGen)

variable {E R R' : Nat → Nat → Prop} {X Z es : Nat → Prop} {root d e e₀ u w : Nat} {i j k : Nat}

/-- The exits after those to some blocks have been led through block `d`. -/
def through (es : Nat → Prop) (d : Nat) (R : Nat → Nat → Prop) (u w : Nat) : Prop :=
  u ≠ d ∧ (¬ es w ∧ R u w ∨ w = d ∧ ∃ e, es e ∧ R u e) ∨ u = d ∧ es w

/-- The block whose place in cycles a block takes: one of its targets for block `d`. -/
def stand (d e₀ u : Nat) : Nat := if u = d then e₀ else u

lemma stand_self : stand d e₀ d = e₀ := if_pos rfl

lemma stand_of_ne (h : u ≠ d) : stand d e₀ u = u := if_neg h

/-- A cycle at some level, a block `d` of no exit, and the blocks at which the cycle is entered, of
which `e₀` is one. -/
structure Doorway (E : Nat → Nat → Prop) (root k : Nat) (X es : Nat → Prop) (d e₀ : Nat) : Prop where
  cycle : Cycle E root k X
  entries (w : Nat) : es w ↔ X w ∧ ∃ u, ¬ X u ∧ E u w
  first : es e₀
  start : ¬ X root
  ne : d ≠ root
  to_none (u : Nat) : ¬ E u d
  from_none (w : Nat) : ¬ E d w

namespace Doorway

variable (h : Doorway E root k X es d e₀)
include h

lemma mem (he : es e) : X e := ((h.entries e).1 he).1

lemma ne_of_mem (hu : X u) : u ≠ d := by
  rintro rfl
  obtain ⟨x, hx⟩ := (h.cycle.tied hu hu).exists_edge
  exact h.to_none x (edge_of_level hx)

lemma tied_entries (hj : j ≤ k) (he : es e) : Tied (level E root j) e₀ e :=
  (h.cycle.tied (h.mem h.first) (h.mem he)).mono fun _ _ => level_anti hj

/-- All exits to the entries are left up to the level of the cycle. -/
lemma tied_of_edge (hj : j < k) (he : es w) (hu : E u w) : Tied (level E root j) u w := by
  by_contra hn
  exact not_entered_of_tied (h.tied_entries (Nat.le_refl k) he) hj (.inr ⟨u, hu, hn⟩)

lemma tied_stand (hj : j ≤ k) (he : es e) :
    Tied (level E root j) u e₀ ↔ Tied (level E root j) u e :=
  ⟨fun ht => ht.trans (h.tied_entries hj he), fun ht => ht.trans (h.tied_entries hj he).symm⟩

/-! ### Paths -/

section

variable (hR : ∀ u w, R u w → E u w) (htied : ∀ e, es e → Tied R e₀ e)
include hR htied

/-- A path through the new block runs, without it, through the entries, which are tied together. -/
lemma transGen_of_through (hp : TransGen (through es d R) u w) :
    TransGen R (stand d e₀ u) (stand d e₀ w) := by
  have hne : ∀ {e}, es e → e ≠ d := fun he => h.ne_of_mem (h.mem he)
  refine TransGen.lift' (stand d e₀) (fun u w he => ?_) _ _ hp
  rcases he with ⟨hu, ⟨_, he⟩ | ⟨rfl, e, hee, he⟩⟩ | ⟨rfl, hw⟩
  · have hw : w ≠ d := by
      rintro rfl
      exact h.to_none u (hR u w he)
    show TransGen R (stand d e₀ u) (stand d e₀ w)
    rw [stand_of_ne hu, stand_of_ne hw]
    exact .single he
  · show TransGen R (stand w e₀ u) (stand w e₀ w)
    rw [stand_of_ne hu, stand_self]
    exact .head he (htied e hee).2
  · show TransGen R (stand u e₀ u) (stand u e₀ w)
    rw [stand_self, stand_of_ne (hne hw)]
    exact (htied w hw).1

omit htied in
lemma ne_of_exit (he : R u w) : u ≠ d := by
  rintro rfl
  exact h.from_none w (hR u w he)

omit htied in
/-- An exit to one of the entries goes through the new block. -/
lemma through_of_exit (he : R u w) : TransGen (through es d R) u w := by
  have hu := h.ne_of_exit hR he
  by_cases hw : es w
  · exact .head (.inl ⟨hu, .inr ⟨rfl, w, hw, he⟩⟩) (.single (.inr ⟨rfl, hw⟩))
  · exact .single (.inl ⟨hu, .inl ⟨hw, he⟩⟩)

omit htied in
lemma through_of_transGen (hp : TransGen R u w) : TransGen (through es d R) u w :=
  TransGen.closed (fun _ _ => h.through_of_exit hR) _ _ hp

omit htied in
/-- What reaches the first entry reaches the new block. -/
lemma through_new_of_transGen (hp : TransGen R u e₀) : TransGen (through es d R) u d := by
  obtain ⟨x, hux, hx⟩ := TransGen.tail'_iff.1 hp
  have hxd : through es d R x d := .inl ⟨h.ne_of_exit hR hx, .inr ⟨rfl, e₀, h.first, hx⟩⟩
  rcases Relation.reflTransGen_iff_eq_or_transGen.1 hux with rfl | hux
  · exact .single hxd
  · exact (h.through_of_transGen hR hux).tail hxd

lemma transGen_through :
    TransGen (through es d R) u w ↔ TransGen R (stand d e₀ u) (stand d e₀ w) := by
  have hgo : through es d R d e₀ := .inr ⟨rfl, h.first⟩
  refine ⟨h.transGen_of_through hR htied, fun hp => ?_⟩
  by_cases hu : u = d <;> by_cases hw : w = d
  · subst hu hw
    rw [stand_self] at hp
    exact (h.through_new_of_transGen hR hp).head hgo
  · subst hu
    rw [stand_self, stand_of_ne hw] at hp
    exact (h.through_of_transGen hR hp).head hgo
  · subst hw
    rw [stand_of_ne hu, stand_self] at hp
    exact h.through_new_of_transGen hR hp
  · rw [stand_of_ne hu, stand_of_ne hw] at hp
    exact h.through_of_transGen hR hp

lemma tied_through : Tied (through es d R) u w ↔ Tied R (stand d e₀ u) (stand d e₀ w) :=
  and_congr (h.transGen_through hR htied) (h.transGen_through hR htied)

end

/-! ### Entries -/

/-- Where the cycle is not entered, exits are as before. -/
lemma through_iff (hw : w ≠ d) (hes : ¬ es w) : through es d E u w ↔ E u w := by
  constructor
  · rintro (⟨_, ⟨_, he⟩ | ⟨hwd, _⟩⟩ | ⟨_, he⟩)
    · exact he
    · exact absurd hwd hw
    · exact absurd he hes
  · intro he
    refine .inl ⟨?_, .inl ⟨hes, he⟩⟩
    rintro rfl
    exact h.from_none w he

lemma entered_through (hw : w ≠ d) (hes : ¬ es w)
    (htied : ∀ u, u ≠ d → (Tied R' u w ↔ Tied R u w)) :
    Entered (through es d E) root R' w ↔ Entered E root R w := by
  refine or_congr_right (exists_congr fun u => ?_)
  rw [h.through_iff hw hes]
  refine and_congr_right fun he => not_congr (htied u ?_)
  rintro rfl
  exact h.from_none w he

section

variable (hR : ∀ u w, R u w → E u w) (htied : ∀ e, es e → Tied R e₀ e)
include hR htied

/-- The old entries are entered from the new block only. -/
lemma not_entered_through (hes : es w) :
    ¬ Entered (through es d E) root (through es d R) w := by
  rintro (rfl | ⟨u, ⟨_, ⟨hn, _⟩ | ⟨rfl, _⟩⟩ | ⟨rfl, _⟩, hn⟩)
  · exact h.start (h.mem hes)
  · exact hn hes
  · exact h.ne_of_mem (h.mem hes) rfl
  · rw [h.tied_through hR htied, stand_self, stand_of_ne (h.ne_of_mem (h.mem hes))] at hn
    exact hn (htied w hes)

/-- The new block is entered where the old entries were. -/
lemma entered_door : Entered (through es d E) root (through es d R) d ↔
    ∃ u e, es e ∧ E u e ∧ ¬ Tied R u e₀ := by
  constructor
  · rintro (hr | ⟨u, ⟨hu, ⟨_, he⟩ | ⟨_, e, hee, he⟩⟩ | ⟨_, hd⟩, hn⟩)
    · exact absurd hr h.ne
    · exact absurd he (h.to_none u)
    · rw [h.tied_through hR htied, stand_of_ne hu, stand_self] at hn
      exact ⟨u, e, hee, he, hn⟩
    · exact absurd rfl (h.ne_of_mem (h.mem hd))
  · rintro ⟨u, e, hee, he, hn⟩
    have hu : u ≠ d := by
      rintro rfl
      exact h.from_none e he
    refine .inr ⟨u, .inl ⟨hu, .inr ⟨rfl, e, hee, he⟩⟩, ?_⟩
    rwa [h.tied_through hR htied, stand_of_ne hu, stand_self]

end

/-! ### Levels -/

lemma entered_entry (he : es e) : Entered E root (level E root k) e := by
  obtain ⟨hX, u, hu, hue⟩ := (h.entries e).1 he
  exact .inr ⟨u, hue, fun ht => hu (h.cycle.of_tied hX ht.symm)⟩

/-- What is left of exits that stay on a cycle, other than to the new block. -/
lemma inner_through (hj : j ≤ k) (hw : w ≠ d) (hes : ¬ es w) :
    inner (through es d E) root (through es d (level E root j)) u w ↔
      inner E root (level E root j) u w := by
  have hR : ∀ u w, level E root j u w → E u w := fun _ _ => edge_of_level
  have htied : ∀ e, es e → Tied (level E root j) e₀ e := fun e he => h.tied_entries hj he
  have hsame : ∀ u, u ≠ d → (Tied (through es d (level E root j)) u w ↔
      Tied (level E root j) u w) := fun u hu => by
    rw [h.tied_through hR htied, stand_of_ne hu, stand_of_ne hw]
  have hentered := h.entered_through hw hes hsame
  constructor
  · rintro ⟨⟨hu, ⟨_, he⟩ | ⟨hwd, _⟩⟩ | ⟨_, hew⟩, ht, hn⟩
    · exact ⟨he, (hsame u hu).1 ht, fun hn' => hn (hentered.2 hn')⟩
    · exact absurd hwd hw
    · exact absurd hew hes
  · rintro ⟨he, ht, hn⟩
    have hu : u ≠ d := by
      rintro rfl
      exact h.from_none w (edge_of_level he)
    exact ⟨.inl ⟨hu, .inl ⟨hes, he⟩⟩, (hsame u hu).2 ht, fun hn' => hn (hentered.1 hn')⟩

/-- Going on from the new block is left as long as it lies on cycles. -/
lemma inner_from_door (hj : j ≤ k) (hes : es w) :
    inner (through es d E) root (through es d (level E root j)) d w := by
  have hR : ∀ u w, level E root j u w → E u w := fun _ _ => edge_of_level
  have htied : ∀ e, es e → Tied (level E root j) e₀ e := fun e he => h.tied_entries hj he
  refine ⟨.inr ⟨rfl, hes⟩, ?_, h.not_entered_through hR htied hes⟩
  rw [h.tied_through hR htied, stand_self, stand_of_ne (h.ne_of_mem (h.mem hes))]
  exact htied w hes

/-- Up to the level of the cycle the new block takes the place of the entries. -/
lemma level_through (hj : j ≤ k) :
    level (through es d E) root j = through es d (level E root j) := by
  induction j with
  | zero => rfl
  | succ j ih =>
    have hR : ∀ u w, level E root j u w → E u w := fun _ _ => edge_of_level
    have htied : ∀ e, es e → Tied (level E root j) e₀ e := fun e he =>
      h.tied_entries (Nat.le_of_succ_le hj) he
    have hentry : ∀ {e}, es e → ¬ Entered E root (level E root j) e := fun he =>
      not_entered_of_tied (h.tied_entries (Nat.le_refl k) he) hj
    funext u w
    rw [eq_iff_iff, level, ih (Nat.le_of_succ_le hj)]
    have hother : w ≠ d → ¬ es w → _ := h.inner_through (u := u) (Nat.le_of_succ_le hj)
    constructor
    · intro hin
      rcases hin.1 with ⟨hu, ⟨hw, he⟩ | ⟨rfl, e, hee, he⟩⟩ | hdoor
      · have hwd : w ≠ d := by
          rintro rfl
          exact h.to_none u (edge_of_level he)
        exact .inl ⟨hu, .inl ⟨hw, (hother hwd hw).1 hin⟩⟩
      · have ht := hin.2.1
        rw [h.tied_through hR htied, stand_of_ne hu, stand_self] at ht
        exact .inl ⟨hu, .inr ⟨rfl, e, hee, he,
          (h.tied_stand (Nat.le_of_succ_le hj) hee).1 ht, hentry hee⟩⟩
      · exact .inr hdoor
    · rintro (⟨hu, ⟨hw, he⟩ | ⟨rfl, e, hee, he, ht, _⟩⟩ | ⟨rfl, hw⟩)
      · have hwd : w ≠ d := by
          rintro rfl
          exact h.to_none u (edge_of_level he.1)
        exact (hother hwd hw).2 he
      · refine ⟨.inl ⟨hu, .inr ⟨rfl, e, hee, he⟩⟩, ?_, ?_⟩
        · rw [h.tied_through hR htied, stand_of_ne hu, stand_self]
          exact (h.tied_stand (Nat.le_of_succ_le hj) hee).2 ht
        · rw [h.entered_door hR htied]
          rintro ⟨x, e', hee', hx, hn⟩
          exact hn ((h.tied_stand (Nat.le_of_succ_le hj) hee').2 (h.tied_of_edge hj hee' hx))
      · exact h.inner_from_door (Nat.le_of_succ_le hj) hw

/-- No entry of the cycle lies on a cycle above its level. -/
lemma off_door (hi : k < i) (ht : Tied (level E root i) u w) : w ≠ d ∧ ¬ es w := by
  obtain ⟨x, hx⟩ := ht.exists_edge
  refine ⟨?_, fun hes => not_entered_of_tied ht hi (h.entered_entry hes)⟩
  rintro rfl
  exact h.to_none x (edge_of_level hx)

lemma tied_above (hlevel : ∀ u w, level (through es d E) root i u w ↔
      level E root i u w ∨ i = k + 1 ∧ u = d ∧ es w) :
    Tied (level (through es d E) root i) u w ↔ Tied (level E root i) u w := by
  refine tied_congr_of_source (fun u w hu => (hlevel u w).2 (.inl hu))
    (fun u w hu => ((hlevel u w).1 hu).imp_right fun h => h.2.1) fun u hu => ?_
  rcases (hlevel u d).1 hu with hu | ⟨_, _, hd⟩
  · exact h.to_none u (edge_of_level hu)
  · exact h.ne_of_mem (h.mem hd) rfl

/-- Above the level of the cycle the new block is a block that nothing leads to. -/
lemma level_above (hi : k < i) : ∀ u w, level (through es d E) root i u w ↔
    level E root i u w ∨ i = k + 1 ∧ u = d ∧ es w := by
  induction hi with
  | refl =>
    intro u w
    have hR : ∀ u w, level E root k u w → E u w := fun _ _ => edge_of_level
    have htied : ∀ e, es e → Tied (level E root k) e₀ e := fun e he =>
      h.tied_entries (Nat.le_refl k) he
    rw [Nat.succ_eq_add_one, level, h.level_through (Nat.le_refl k)]
    by_cases hw : w = d
    · -- the new block is entered there, as its targets were
      subst hw
      constructor
      · rintro ⟨_, _, hn⟩
        obtain ⟨_, x, hx, hxe⟩ := (h.entries e₀).1 h.first
        refine absurd ((h.entered_door hR htied).2 ⟨x, e₀, h.first, hxe, fun ht => hx ?_⟩) hn
        exact h.cycle.of_tied (h.mem h.first) ht.symm
      · rintro (he | ⟨_, _, hd⟩)
        · exact absurd (edge_of_level he.1) (h.to_none u)
        · exact absurd rfl (h.ne_of_mem (h.mem hd))
    · by_cases hes : es w
      · constructor
        · rintro ⟨⟨_, ⟨hn, _⟩ | ⟨hwd, _⟩⟩ | hdoor, _⟩
          · exact absurd hes hn
          · exact absurd hwd hw
          · exact .inr ⟨rfl, hdoor⟩
        · rintro (he | ⟨_, rfl, _⟩)
          · exact absurd (h.entered_entry hes) he.2.2
          · exact h.inner_from_door (Nat.le_refl k) hes
      · rw [h.inner_through (Nat.le_refl k) hw hes]
        exact ⟨.inl, fun he => he.resolve_right fun hd => hes hd.2.2⟩
  | @step i hi ih =>
    intro u w
    have hki : k < i := hi
    have hne : ¬ i + 1 = k + 1 := by omega
    have htied : ∀ u w, Tied (level (through es d E) root i) u w ↔ Tied (level E root i) u w :=
      fun u w => h.tied_above ih
    simp only [Nat.succ_eq_add_one, level, inner, htied, hne, false_and, or_false]
    constructor
    · rintro ⟨he, ht, hn⟩
      obtain ⟨hw, hes⟩ := h.off_door hi ht
      refine ⟨((ih u w).1 he).resolve_right fun hd => (h.off_door hi ht.symm).1 hd.2.1, ht, ?_⟩
      rwa [h.entered_through hw hes fun u _ => htied u w] at hn
    · rintro ⟨he, ht, hn⟩
      obtain ⟨hw, hes⟩ := h.off_door hi ht
      refine ⟨(ih u w).2 (.inl he), ht, ?_⟩
      rwa [h.entered_through hw hes fun u _ => htied u w]

/-! ### What leads back -/

lemma tied_level (i : Nat) (hu : u ≠ d) (hw : w ≠ d) :
    Tied (level (through es d E) root i) u w ↔ Tied (level E root i) u w := by
  rcases Nat.lt_or_ge k i with hi | hi
  · exact h.tied_above (h.level_above hi)
  · rw [h.level_through hi, h.tied_through (fun _ _ => edge_of_level)
      (fun e he => h.tied_entries hi he), stand_of_ne hu, stand_of_ne hw]

/-- The new block lies on the cycles that the entries lay on, up to the level of their cycle. -/
lemma tied_door (i : Nat) (hu : u ≠ d) : Tied (level (through es d E) root i) u d ↔
    i ≤ k ∧ Tied (level E root i) u e₀ := by
  rcases Nat.lt_or_ge k i with hi | hi
  · rw [h.tied_above (h.level_above hi)]
    exact ⟨fun ht => absurd rfl (h.off_door hi ht).1, fun ht => absurd ht.1 (Nat.not_le_of_lt hi)⟩
  · rw [h.level_through hi, h.tied_through (fun _ _ => edge_of_level)
      (fun e he => h.tied_entries hi he), stand_of_ne hu, stand_self]
    exact ⟨fun ht => ⟨hi, ht⟩, And.right⟩

/-- The new block is where the cycle is entered. -/
lemma entered_iff (hw : X w ∨ w = d) :
    Entered (through es d E) root (level (through es d E) root k) w ↔ w = d := by
  have hR : ∀ u w, level E root k u w → E u w := fun _ _ => edge_of_level
  have htied : ∀ e, es e → Tied (level E root k) e₀ e := fun e he =>
    h.tied_entries (Nat.le_refl k) he
  by_cases hwd : w = d
  · refine iff_of_true ?_ hwd
    rw [hwd, h.level_through (Nat.le_refl k), h.entered_door hR htied]
    obtain ⟨_, x, hx, hxe⟩ := (h.entries e₀).1 h.first
    exact ⟨x, e₀, h.first, hxe, fun ht => hx (h.cycle.of_tied (h.mem h.first) ht.symm)⟩
  · refine iff_of_false (fun hent => ?_) hwd
    have hX := hw.resolve_right hwd
    by_cases hes : es w
    · rw [h.level_through (Nat.le_refl k)] at hent
      exact h.not_entered_through hR htied hes hent
    · rw [h.entered_through hwd hes fun u hu => h.tied_level k hu hwd] at hent
      rcases hent with rfl | ⟨u, hu, hn⟩
      · exact h.start hX
      · exact hes ((h.entries w).2 ⟨hX, u, fun hXu => hn (h.cycle.tied hXu hX), hu⟩)

/-- An exit that is not led through the new block leads back if it did before. -/
theorem back_through (hu : u ≠ d) (hw : w ≠ d) (hes : ¬ es w) :
    Back (through es d E) root u w ↔ Back E root u w := by
  simp only [Back, h.through_iff hw hes]
  refine and_congr_right fun _ => exists_congr fun i => ?_
  exact and_congr (h.tied_level i hu hw)
    (h.entered_through hw hes fun u hu => h.tied_level i hu hw)

/-- An exit to an entry of the cycle leads back if it comes from the cycle. -/
lemma back_entry (hes : es w) (he : E u w) : Back E root u w ↔ X u := by
  constructor
  · rintro ⟨_, i, ht, hn⟩
    rcases Nat.lt_trichotomy i k with hi | rfl | hi
    · exact absurd hn (not_entered_of_tied (h.tied_entries (Nat.le_refl k) hes) hi)
    · exact h.cycle.of_tied (h.mem hes) ht.symm
    · exact absurd hes (h.off_door hi ht).2
  · exact fun hu => ⟨he, k, h.cycle.tied hu (h.mem hes), h.entered_entry hes⟩

/-- An exit that is led through the new block leads back if it did before. -/
theorem back_to_door (hes : es w) (he : E u w) :
    Back (through es d E) root u d ↔ Back E root u w := by
  have hu : u ≠ d := by
    rintro rfl
    exact h.from_none w he
  rw [h.back_entry hes he]
  constructor
  · rintro ⟨_, i, ht, hn⟩
    obtain ⟨hi, ht⟩ := (h.tied_door i hu).1 ht
    have htied : ∀ e, es e → Tied (level E root i) e₀ e := fun e he => h.tied_entries hi he
    rw [h.level_through hi, h.entered_door (fun _ _ => edge_of_level) htied] at hn
    obtain ⟨x, e, hee, hx, hn⟩ := hn
    rcases Nat.lt_or_eq_of_le hi with hi' | rfl
    · exact absurd ((h.tied_stand hi hee).2 (h.tied_of_edge hi' hee hx)) hn
    · exact h.cycle.of_tied (h.mem h.first) ht.symm
  · intro hX
    have ht : Tied (level E root k) u e₀ := h.cycle.tied hX (h.mem h.first)
    exact ⟨.inl ⟨hu, .inr ⟨rfl, w, hes, he⟩⟩, k, (h.tied_door k hu).2 ⟨Nat.le_refl k, ht⟩,
      (h.entered_iff (.inr rfl)).2 rfl⟩

/-- Going on from the new block never leads back. -/
theorem not_back_from_door : ¬ Back (through es d E) root d w := by
  rintro ⟨he, i, ht, hn⟩
  have hes : es w := by
    rcases he with ⟨hd, _⟩ | ⟨_, hes⟩
    · exact absurd rfl hd
    · exact hes
  obtain ⟨hi, _⟩ := (h.tied_door i (h.ne_of_mem (h.mem hes))).1 ht.symm
  rw [h.level_through hi] at hn
  exact h.not_entered_through (fun _ _ => edge_of_level) (fun e he => h.tied_entries hi he) hes hn

/-! ### Other cycles -/

/-- The new block belongs to the cycle. -/
lemma cycle_through : Cycle (through es d E) root k fun x => X x ∨ x = d := by
  have hne := h.ne_of_mem (h.mem h.first)
  have htied := h.cycle.tied (h.mem h.first) (h.mem h.first)
  refine ⟨e₀, .inl (h.mem h.first), fun y => ?_⟩
  by_cases hy : y = d
  · rw [hy, h.tied_door k hne]
    exact ⟨fun _ => ⟨Nat.le_refl k, htied⟩, fun _ => .inr rfl⟩
  · show X y ∨ y = d ↔ _
    rw [h.tied_level k hne hy, or_iff_left hy]
    exact ⟨h.cycle.tied (h.mem h.first), h.cycle.of_tied (h.mem h.first)⟩

/-- Cycles apart from this one stay. -/
lemma cycle_of_disjoint (hZ : Cycle E root j Z) (hdisj : ∀ z, Z z → ¬ X z) :
    Cycle (through es d E) root j Z := by
  have hne : ∀ {z}, Z z → z ≠ d := by
    rintro z hz rfl
    obtain ⟨x, hx⟩ := (hZ.tied hz hz).exists_edge
    exact h.to_none x (edge_of_level hx)
  obtain ⟨x, hx, hiff⟩ := hZ
  refine ⟨x, hx, fun y => ?_⟩
  by_cases hy : y = d
  · rw [hy, h.tied_door j (hne hx)]
    refine ⟨fun hd => absurd rfl (hne hd), fun ht => ?_⟩
    exact absurd (h.mem h.first) (hdisj e₀ ((hiff e₀).2 ht.2))
  · rw [h.tied_level j (hne hx) hy, hiff]

end Doorway

end Dynarec.Flow
