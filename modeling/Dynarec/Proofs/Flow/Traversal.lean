import Mathlib.Data.List.Basic
import Mathlib.Logic.Function.Iterate
import Mathlib.Tactic.Common

/-!
# Depth-first search as a loop

A depth-first search may be written as a recursion, or as a loop that keeps the blocks being visited
on a stack of its own, each with the number of its exits that it has looked at. `Traversal` says what
a search does with its state, `Traversal.visit` is the recursion with a bound on its depth, and
`Traversal.advance` is one round of the loop. When every block that is discovered takes one from
the undiscovered ones, the loop ends, and with the state that the recursion gives.
-/

namespace Dynarec.Flow

/-- A depth-first search over a type of states: the blocks that exits lead to, whether a block is to
be visited, and how the state changes on discovering a block, on an exit of a block to one that is
not to be visited, on leaving a block, and on coming back to a block from one it leads to. -/
structure Traversal (σ : Type) where
  targets : Nat → List Nat
  fresh : σ → Nat → Bool
  enter : Nat → σ → σ
  pass : Nat → Nat → σ → σ
  leave : Nat → σ → σ
  back : Nat → Nat → σ → σ

namespace Traversal

variable {σ : Type} (t : Traversal σ)

/-! ### The recursion -/

/-- Look at an exit of a block, where `visit` visits a block. -/
def look (visit : Nat → σ → σ) (v : Nat) (s : σ) (w : Nat) : σ :=
  if t.fresh s w then t.back v w (visit w s) else t.pass v w s

/-- Visit a block and all that it leads to; the fuel bounds the depth. -/
def visit : Nat → Nat → σ → σ
  | 0, _, s => s
  | fuel + 1, v, s => t.leave v ((t.targets v).foldl (t.look (visit fuel) v) (t.enter v s))

/-- Visit a block if it is to be visited. -/
def seek (fuel : Nat) (s : σ) (v : Nat) : σ := if t.fresh s v then t.visit fuel v s else s

/-! ### The loop -/

/-- A search that is going on: its state, the blocks being visited with the number of exits that
have been looked at, the innermost first, and the blocks to start from next. -/
structure Loop (σ : Type) where
  state : σ
  calls : List (Nat × Nat)
  roots : List Nat

/-- Come back from a block to the one whose exit led to it, if there is one. -/
def backTo (v : Nat) (s : σ) : List (Nat × Nat) → σ
  | [] => s
  | (u, _) :: _ => t.back u v s

/-- One round of the loop: look at the next exit of the innermost block, or leave it when there is
none, or start from the next block. It does nothing once no block is left. -/
def advance : Loop σ → Loop σ
  | ⟨s, [], []⟩ => ⟨s, [], []⟩
  | ⟨s, [], v :: roots⟩ => if t.fresh s v then ⟨t.enter v s, [(v, 0)], roots⟩ else ⟨s, [], roots⟩
  | ⟨s, (v, i) :: calls, roots⟩ =>
    match (t.targets v)[i]? with
    | some w =>
      if t.fresh s w then ⟨t.enter w s, (w, 0) :: (v, i + 1) :: calls, roots⟩
      else ⟨t.pass v w s, (v, i + 1) :: calls, roots⟩
    | none => ⟨t.backTo v (t.leave v s) calls, calls, roots⟩

/-- Some number of rounds of the loop lead from one search to another. -/
def Reaches (a b : Loop σ) : Prop := ∃ n, t.advance^[n] a = b

variable {t}

lemma Reaches.refl (a : Loop σ) : t.Reaches a a := ⟨0, rfl⟩

lemma Reaches.trans {a b c : Loop σ} (h : t.Reaches a b) (h' : t.Reaches b c) : t.Reaches a c := by
  obtain ⟨n, rfl⟩ := h
  obtain ⟨m, rfl⟩ := h'
  exact ⟨m + n, Function.iterate_add_apply ..⟩

/-- One round, then others. -/
lemma Reaches.head {a b c : Loop σ} (h : t.advance a = b) (h' : t.Reaches b c) : t.Reaches a c :=
  Reaches.trans ⟨1, h⟩ h'

/-! ### Searches that end -/

/-- A search discovers blocks: discovering one takes it from the undiscovered ones, which nothing
else changes. `Good` holds of all states of the search, and `Block` of all blocks that it may
discover. -/
structure Discovers (t : Traversal σ) (Good : σ → Prop) (Block : Nat → Prop)
    (undiscovered : σ → Nat) : Prop where
  target : ∀ v, ∀ w ∈ t.targets v, Block w
  enter : ∀ s v, Good s → Block v → t.fresh s v = true →
    Good (t.enter v s) ∧ undiscovered (t.enter v s) < undiscovered s
  pass : ∀ s v w, Good s → Good (t.pass v w s) ∧ undiscovered (t.pass v w s) = undiscovered s
  leave : ∀ s v, Good s → Good (t.leave v s) ∧ undiscovered (t.leave v s) = undiscovered s
  back : ∀ s v w, Good s → Good (t.back v w s) ∧ undiscovered (t.back v w s) = undiscovered s

/-- With the exits of a block still to be looked at from some number on, the loop leaves the block
with a state in which no more is undiscovered. -/
structure Completes (t : Traversal σ) (Good : σ → Prop) (undiscovered : σ → Nat) (v i : Nat)
    (s s' : σ) : Prop where
  good : Good s'
  le : undiscovered s' ≤ undiscovered s
  reaches : ∀ calls roots, t.Reaches ⟨s, (v, i) :: calls, roots⟩ ⟨t.backTo v s' calls, calls, roots⟩

namespace Discovers

variable {Good : σ → Prop} {Block : Nat → Prop} {undiscovered : σ → Nat}
  (h : Discovers t Good Block undiscovered)
include h

/-- The exits of a block are looked at one after the other, when visits do what the loop does. -/
lemma completes_scan {fuel v : Nat}
    (hvisit : ∀ {w s}, Good s → Block w → t.fresh s w = true → undiscovered s ≤ fuel →
      Completes t Good undiscovered w 0 (t.enter w s) (t.visit fuel w s))
    {ws : List Nat} {i : Nat} {s : σ} (hdrop : (t.targets v).drop i = ws) (hs : Good s)
    (hfuel : undiscovered s ≤ fuel) :
    Completes t Good undiscovered v i s (t.leave v (ws.foldl (t.look (t.visit fuel) v) s)) := by
  induction ws generalizing i s with
  | nil =>
    obtain ⟨hg, hle⟩ := h.leave s v hs
    refine ⟨hg, Nat.le_of_eq hle, fun calls roots => .head ?_ (.refl _)⟩
    have hnone : (t.targets v)[i]? = none :=
      List.getElem?_eq_none (List.drop_eq_nil_iff.1 hdrop)
    simp only [advance, hnone, List.foldl_nil]
  | cons w ws ih =>
    have hget : (t.targets v)[i]? = some w := by
      rw [← List.head?_drop, hdrop, List.head?_cons]
    have hw : Block w := h.target v w (List.mem_of_getElem? hget)
    have hrest : (t.targets v).drop (i + 1) = ws := by
      rw [← List.tail_drop, hdrop, List.tail_cons]
    rw [List.foldl_cons]
    by_cases hfresh : t.fresh s w = true
    · -- the block at the exit is visited, and then the other exits are looked at
      have hinner := hvisit hs hw hfresh hfuel
      have hlt := (h.enter s w hs hw hfresh).2
      have hle := hinner.le
      obtain ⟨hg, hback⟩ := h.back (t.visit fuel w s) v w hinner.good
      have hlook : t.look (t.visit fuel) v s w = t.back v w (t.visit fuel w s) := if_pos hfresh
      have hnext := ih hrest hg (by omega)
      rw [hlook]
      refine ⟨hnext.good, Nat.le_trans hnext.le (by omega), fun calls roots => .head ?_
        ((hinner.reaches ((v, i + 1) :: calls) roots).trans (hnext.reaches calls roots))⟩
      simp only [advance, hget, if_pos hfresh]
    · obtain ⟨hg, hle⟩ := h.pass s v w hs
      have hlook : t.look (t.visit fuel) v s w = t.pass v w s := if_neg hfresh
      have hnext := ih hrest hg (by omega)
      rw [hlook]
      refine ⟨hnext.good, hle ▸ hnext.le, fun calls roots => .head ?_
        (hnext.reaches calls roots)⟩
      simp only [advance, hget, if_neg hfresh]

/-- What a visit leaves undiscovered, and that the loop does what the visit does. -/
lemma completes_visit {fuel v : Nat} {s : σ} (hs : Good s) (hv : Block v) (hf : t.fresh s v = true)
    (hfuel : undiscovered s ≤ fuel) :
    Completes t Good undiscovered v 0 (t.enter v s) (t.visit fuel v s) := by
  obtain ⟨hgood, hlt⟩ := h.enter s v hs hv hf
  induction fuel generalizing v s with
  | zero => omega
  | succ fuel ih =>
    refine h.completes_scan (fun hs hw hf hfuel => ?_) rfl hgood (by omega)
    obtain ⟨hgood, hlt⟩ := h.enter _ _ hs hw hf
    exact ih hs hw hf hfuel hgood hlt

/-- The loop ends with what the recursion gives from one block after the other. -/
theorem reaches_seek {fuel : Nat} {vs : List Nat} (hvs : ∀ v ∈ vs, Block v) {s : σ} (hs : Good s)
    (hfuel : undiscovered s ≤ fuel) :
    t.Reaches ⟨s, [], vs⟩ ⟨vs.foldl (t.seek fuel) s, [], []⟩ := by
  induction vs generalizing s with
  | nil => exact .refl _
  | cons v vs ih =>
    have hvs' : ∀ w ∈ vs, Block w := fun w hw => hvs w (List.mem_cons_of_mem _ hw)
    rw [List.foldl_cons]
    by_cases hfresh : t.fresh s v = true
    · have hvisit := h.completes_visit hs (hvs v List.mem_cons_self) hfresh hfuel
      have hlt := (h.enter s v hs (hvs v List.mem_cons_self) hfresh).2
      have hfuel' : undiscovered (t.visit fuel v s) ≤ fuel :=
        Nat.le_trans hvisit.le (Nat.le_trans (Nat.le_of_lt hlt) hfuel)
      have hseek : t.seek fuel s v = t.visit fuel v s := if_pos hfresh
      rw [hseek]
      refine .head ?_ ((hvisit.reaches [] vs).trans (ih hvs' hvisit.good hfuel'))
      simp only [advance, if_pos hfresh]
    · have hseek : t.seek fuel s v = s := if_neg hfresh
      rw [hseek]
      refine .head ?_ (ih hvs' hs hfuel)
      simp only [advance, if_neg hfresh]

end Discovers

/-- What every step of a search keeps, a visit keeps. -/
lemma visit_keeps {P : σ → Prop} (henter : ∀ v s, P s → P (t.enter v s))
    (hpass : ∀ v w s, P s → P (t.pass v w s)) (hleave : ∀ v s, P s → P (t.leave v s))
    (hback : ∀ v w s, P s → P (t.back v w s)) {fuel v : Nat} {s : σ} (hs : P s) :
    P (t.visit fuel v s) := by
  induction fuel generalizing v s with
  | zero => exact hs
  | succ fuel ih =>
    refine hleave v _ (List.foldlRecOn _ _ (henter v s hs) fun s' hs' w _ => ?_)
    unfold look
    split
    · exact hback v w _ (ih hs')
    · exact hpass v w s' hs'

end Traversal

end Dynarec.Flow
