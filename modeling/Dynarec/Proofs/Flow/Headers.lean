import Mathlib.Data.Fintype.EquivFin
import Dynarec.Proofs.Flow.Cycles
import Dynarec.Proofs.Flow.Dominators

/-!
# Headers of cycles

In a graph that is laid out a cycle at any level is entered at one block, which dominates the rest of
it. So an exit leads back exactly if it goes to a dominator of its source: a cycle through such an
exit keeps the exits that it has elsewhere from level to level, and levels run out of cycles.
-/

namespace Dynarec.Flow.Graph

open Relation (ReflTransGen TransGen)

variable {B C : Type} {g : Graph B C} {order : List Nat} {a b h u v w : Nat} {j k : Nat}

/-- The exits of reached blocks that are left after a number of levels. -/
abbrev levels (g : Graph B C) (k : Nat) : Nat → Nat → Prop := level g.Live g.entry k

/-- The blocks of a cycle lead to each other inside of it. -/
lemma strong_of_tied (h : Tied (g.levels k) u u) : g.Strong (Tied (g.levels k) u) := by
  refine ⟨⟨u, h⟩, fun x y hx hy => ?_⟩
  have hxy := hx.symm.trans hy
  -- what lies between two blocks of a cycle belongs to it
  have hpath : ∀ {z}, TransGen (g.levels k) x z → TransGen (g.levels k) z x →
      TransGen (fun a b => Tied (g.levels k) u a ∧ Tied (g.levels k) u b ∧ g.Edge a b) x z := by
    intro z hxz
    induction hxz with
    | @single z he =>
      exact fun hback => .single ⟨hx, hx.trans ⟨.single he, hback⟩, (edge_of_level he).2⟩
    | @tail a z hxa he ih =>
      intro hback
      exact (ih (hback.head he)).tail ⟨hx.trans ⟨hxa, hback.head he⟩,
        hx.trans ⟨hxa.tail he, hback⟩, (edge_of_level he).2⟩
  exact hpath hxy.1 hxy.2

lemma SingleEntry.dom {S : Nat → Prop} (hS : g.SingleEntry S h) (hu : S u) : g.Dom h u := by
  rintro ⟨hne, hp⟩
  obtain ⟨x, y, hx, hy, he, hyh⟩ := exists_entering (S := S) hp (fun hs => hne (hS.entry hs).symm) hu
  exact hyh (hS.edge x y he hx hy)

/-- A path from a dominator that does not come back to it. -/
lemma Dom.exists_path (hu : g.Leads g.entry u) (hd : g.Dom h u) :
    ReflTransGen (fun a b => g.Live a b ∧ b ≠ h) h u := by
  have key : ∀ {x}, ReflTransGen g.Live g.entry x →
      g.Avoids h x ∨ ReflTransGen (fun a b => g.Live a b ∧ b ≠ h) h x := by
    intro x hx
    induction hx with
    | refl =>
      by_cases hh : h = g.entry
      · exact .inr (hh ▸ .refl)
      · exact .inl ⟨hh, .refl⟩
    | @tail x y _ he ih =>
      by_cases hy : y = h
      · exact .inr (hy ▸ .refl)
      · exact ih.imp (fun h => h.tail he.2 hy) fun h => h.tail ⟨he, hy⟩
  exact (key (leads_live hu)).resolve_left hd

/-- A dominator of the end of a path that does not come back to it dominates what lies on it. -/
lemma Dom.of_path (hd : g.Dom h w) (hp : ReflTransGen (fun a b => g.levels k a b ∧ b ≠ h) u w) :
    g.Dom h u := by
  induction hp with
  | refl => exact hd
  | tail _ he ih => exact ih fun hav => hd (hav.tail (edge_of_level he.1).2 he.2)

/-- The cycles of a level have headers: blocks that dominate them and at which alone they are
entered. -/
def Headed (g : Graph B C) (k : Nat) : Prop :=
  ∀ u, Tied (g.levels k) u u → ∃ h, (∀ x, Tied (g.levels k) u x → g.Dom h x) ∧
    ∀ w, Tied (g.levels k) u w → Entered g.Live g.entry (g.levels k) w → w = h

namespace Laid

variable (hlaid : g.Laid order)
include hlaid

/-- A path from a dominator on a cycle keeps its exits, as long as it does not come back. -/
lemma path_succ (hk : g.Headed k) (hp : ReflTransGen (fun a b => g.levels k a b ∧ b ≠ h) h v)
    (hback : TransGen (g.levels k) v h) (hd : g.Dom h v) :
    ReflTransGen (fun a b => g.levels (k + 1) a b ∧ b ≠ h) h v := by
  have hmono : ∀ {x y}, ReflTransGen (fun a b => g.levels k a b ∧ b ≠ h) x y →
      ReflTransGen (g.levels k) x y := fun hp => ReflTransGen.mono (fun _ _ he => he.1) _ _ hp
  have hleft : ∀ {x}, ReflTransGen (fun a b => g.levels k a b ∧ b ≠ h) x v →
      ReflTransGen (g.levels k) h x →
      ReflTransGen (fun a b => g.levels (k + 1) a b ∧ b ≠ h) x v := by
    intro x hx
    induction hx using ReflTransGen.head_induction_on with
    | refl => exact fun _ => .refl
    | @head a b he hbv ih =>
      intro ha
      have hbh : TransGen (g.levels k) b h := TransGen.trans_right (hmono hbv) hback
      have hhb : TransGen (g.levels k) h b := TransGen.tail' ha he.1
      have hab : Tied (g.levels k) a b := ⟨.single he.1, hbh.trans_left ha⟩
      refine .head ⟨⟨he.1, hab, fun hentered => he.2 ?_⟩, he.2⟩ (ih hhb.to_reflTransGen)
      -- the header of the cycle would be `b`, which `h` dominates
      obtain ⟨c, hdom, honly⟩ := hk h ⟨hhb.trans hbh, hhb.trans hbh⟩
      obtain rfl := honly b ⟨hhb, hbh⟩ hentered
      obtain ⟨y, hy, _⟩ := TransGen.head'_iff.1 hhb
      exact hlaid.dom_antisymm ((hlaid.ordered.mem h).2 (edge_of_level hy).1)
        (hdom h ⟨hhb.trans hbh, hhb.trans hbh⟩) (hd.of_path hbv)
  exact hleft hp .refl

/-- No cycle goes through the entry of the graph. -/
lemma ne_entry (ht : Tied (g.levels k) u w) : w ≠ g.entry := by
  rintro rfl
  obtain ⟨x, hx⟩ := ht.exists_edge
  exact hlaid.start x (edge_of_level hx).2

/-- The cycles of every level have headers. -/
theorem headed (k : Nat) : g.Headed k := by
  induction k using Nat.strong_induction_on with
  | _ k ih =>
    intro u hu
    obtain ⟨S, h, hXS, -, hXh, hS⟩ := hlaid.reducible _ (strong_of_tied hu) fun _ _ => trivial
    refine ⟨h, fun x hx => hS.dom (hXS x hx), fun w hw hentered => ?_⟩
    by_contra hne
    rcases hentered with hentry | ⟨v, hv, hn⟩
    · exact hlaid.ne_entry hw hentry
    -- the cycle would be entered from a block that it leads to
    have hSv : S v := by
      by_contra hSv
      exact hne (hS.edge v w hv.2 hSv (hXS w hw))
    have hwh : Tied (g.levels k) w h := hw.symm.trans hXh
    have hstay : ∀ j ≤ k, ReflTransGen (fun a b => g.levels j a b ∧ b ≠ h) h v ∧
        g.levels j v w := by
      intro j
      induction j with
      | zero => exact fun _ => ⟨(hS.dom hSv).exists_path hv.1, hv⟩
      | succ j ihj =>
        intro hj
        obtain ⟨hp, he⟩ := ihj (Nat.le_of_succ_le hj)
        have hback : TransGen (g.levels j) v h :=
          (TransGen.mono (fun _ _ => level_anti (Nat.le_of_succ_le hj)) _ _ hwh.1).head he
        have hhv : ReflTransGen (g.levels j) h v := ReflTransGen.mono (fun _ _ he => he.1) _ _ hp
        refine ⟨hlaid.path_succ (ih j hj) hp hback (hS.dom hSv), he, ?_, ?_⟩
        · exact ⟨.single he, (TransGen.mono (fun _ _ => level_anti (Nat.le_of_succ_le hj)) _ _
            hwh.1).trans_left hhv⟩
        · exact not_entered_of_tied hw hj
    obtain ⟨hp, he⟩ := hstay k (Nat.le_refl k)
    have hhv : ReflTransGen (g.levels k) h v := ReflTransGen.mono (fun _ _ he => he.1) _ _ hp
    exact hn ⟨.single he, hwh.1.trans_left hhv⟩

/-- At some level no block lies on a cycle any more. -/
lemma exists_not_tied (u : Nat) : ∃ k, ¬ Tied (g.levels k) u u := by
  by_contra hall
  rw [not_exists] at hall
  -- at every level the cycle of the block would be entered at a block of its own
  have hentered : ∀ k, ∃ y : Fin g.blocks.size, Tied (g.levels k) y y ∧
      Entered g.Live g.entry (g.levels k) y := by
    intro k
    have hu : Tied (g.levels k) u u := not_not.1 (hall k)
    obtain ⟨z, hz⟩ := hu.exists_edge
    obtain ⟨hz, he⟩ := edge_of_level hz
    obtain ⟨x, y, hx, hy, hxy⟩ := exists_entering (S := Tied (g.levels k) u)
      (leads_live (hz.tail he)) (fun ht => hlaid.ne_entry ht rfl) hu
    refine ⟨⟨y, hlaid.target hxy.2⟩, hy.symm.trans hy, .inr ⟨x, hxy, fun ht => hx ?_⟩⟩
    exact hy.trans ht.symm
  choose y htied hentered using hentered
  refine not_injective_infinite_finite y fun i j hij => ?_
  rcases Nat.lt_trichotomy i j with hlt | heq | hlt
  · exact absurd (hij ▸ hentered i) (not_entered_of_tied (htied j) hlt)
  · exact heq
  · exact absurd (hij ▸ hentered j) (not_entered_of_tied (htied i) hlt)

/-- In a graph that is laid out exits lead back to dominators of their sources. -/
theorem back_iff_dom (he : g.Live u w) : Back g.Live g.entry u w ↔ g.Dom w u := by
  constructor
  · rintro ⟨_, k, ht, hentered⟩
    obtain ⟨h, hdom, honly⟩ := hlaid.headed k w (ht.symm.trans ht)
    obtain rfl := honly w (ht.symm.trans ht) hentered
    exact hdom u ht.symm
  · intro hd
    by_contra hn
    -- otherwise the cycle through the exit would stay at every level
    have hstay : ∀ k, ReflTransGen (fun a b => g.levels k a b ∧ b ≠ w) w u ∧ g.levels k u w := by
      intro k
      induction k with
      | zero => exact ⟨hd.exists_path he.1, he⟩
      | succ k ih =>
        obtain ⟨hp, hk⟩ := ih
        have ht : Tied (g.levels k) u w := by
          refine ⟨.single hk, ?_⟩
          rcases Relation.reflTransGen_iff_eq_or_transGen.1
            (ReflTransGen.mono (fun _ _ he => he.1) _ _ hp) with rfl | hp
          · exact .single hk
          · exact hp
        exact ⟨hlaid.path_succ (hlaid.headed k) hp (.single hk) hd, hk, ht,
          fun hentered => hn ⟨he, k, ht, hentered⟩⟩
    obtain ⟨k, hk⟩ := hlaid.exists_not_tied w
    obtain ⟨hp, hlast⟩ := hstay k
    have hp : ReflTransGen (g.levels k) w u := ReflTransGen.mono (fun _ _ he => he.1) _ _ hp
    exact hk ⟨TransGen.tail' hp hlast, TransGen.tail' hp hlast⟩

end Laid

end Dynarec.Flow.Graph
