import Dynarec.Proofs.Flow.Meaning

/-!
# Graphs without a structured form

`Graph.structurize` refuses a graph only for what is wrong with the graph itself: it has no blocks,
its entry or a target is no block, or a block has exits that do not end as they should. `Fault` says
this without reference to `Graph.validate`. The errors that placing could have do not occur, because
in the graph that is laid out every exit that leads back leads to a dominator of its source.
-/

namespace Dynarec.Flow

variable {B C : Type}

/-- Some conditional exits followed by one unconditional exit. -/
def WellEnded (exits : List (Exit C)) : Prop :=
  ∃ conditional last, exits = conditional ++ [last] ∧
    (∀ e ∈ conditional, e.test.isSome) ∧ last.test = none

lemma wellEnded_iff_complete {exits : List (Exit C)} : WellEnded exits ↔ Complete exits := by
  constructor
  · rintro ⟨conditional, last, rfl, htest, hlast⟩
    induction conditional with
    | nil => exact .last hlast
    | cons e conditional ih =>
      obtain ⟨t, ht⟩ := Option.isSome_iff_exists.1 (htest e List.mem_cons_self)
      exact .test ht (ih fun e' he' => htest e' (List.mem_cons_of_mem _ he'))
  · intro h
    induction h with
    | @last e he => exact ⟨[], e, rfl, by simp, he⟩
    | @test e t rest ht _ ih =>
      obtain ⟨conditional, last, rfl, htest, hlast⟩ := ih
      exact ⟨e :: conditional, last, rfl, List.forall_mem_cons.2 ⟨by rw [ht]; rfl, htest⟩, hlast⟩

namespace Graph

variable {g : Graph B C}

/-- What can be wrong with a graph, and the error that says so. -/
inductive Fault (g : Graph B C) : StructureError → Prop where
  | empty : g.blocks.size = 0 → g.Fault .empty
  | entry : g.blocks.size ≤ g.entry → g.Fault (.unknownTarget g.entry g.entry)
  | target {n : Nat} {e : Exit C} :
    e ∈ g.exits n → g.blocks.size ≤ e.target → g.Fault (.unknownTarget n e.target)
  | exits {n : Nat} : g.exits n ≠ [] → ¬ WellEnded (g.exits n) → g.Fault (.malformedExits n)

/-! ### Errors are faults -/

/-- An error in the exits of a block names a target that is no block, or the block when its exits do
not end as they should. -/
lemma checkExits_error {count n : Nat} {exits : List (Exit C)} {err : StructureError}
    (h : checkExits count n exits = .error err) :
    (∃ e ∈ exits, count ≤ e.target ∧ err = .unknownTarget n e.target) ∨
      (exits ≠ [] ∧ ¬ Complete exits) ∧ err = .malformedExits n := by
  induction exits with
  | nil => cases h
  | cons e rest ih =>
    rw [checkExits] at h
    split at h
    · next hle =>
      cases h
      exact .inl ⟨e, List.mem_cons_self, hle, rfl⟩
    · split at h
      · next htest =>
        cases h
        refine .inr ⟨⟨List.cons_ne_nil _ _, fun hc => ?_⟩, rfl⟩
        cases hc with
        | last he => simp [he] at htest
        | test ht hrest => cases hrest <;> simp [ht] at htest
      · next htest =>
        rcases ih h with ⟨e', he', hle, rfl⟩ | ⟨⟨hne, hc⟩, rfl⟩
        · exact .inl ⟨e', List.mem_cons_of_mem _ he', hle, rfl⟩
        · refine .inr ⟨⟨List.cons_ne_nil _ _, fun hc' => ?_⟩, rfl⟩
          cases hc' with
          | last he => exact hne rfl
          | test _ hrest => exact hc hrest

/-- The error of a failing check of a list is the error of one of its elements. -/
lemma exists_of_forM_error {α ε : Type} {f : α → Except ε Unit} {l : List α} {err : ε}
    (h : l.forM f = .error err) : ∃ a ∈ l, f a = .error err := by
  induction l with
  | nil => cases h
  | cons a l ih =>
    change (f a >>= fun _ => l.forM f) = .error err at h
    cases ha : f a with
    | error e =>
      rw [ha] at h
      cases h
      exact ⟨a, List.mem_cons_self, ha⟩
    | ok u =>
      rw [ha] at h
      obtain ⟨b, hb, hfb⟩ := ih h
      exact ⟨b, List.mem_cons_of_mem _ hb, hfb⟩

/-- What `validate` reports is a fault. -/
lemma fault_of_validate {err : StructureError} (h : g.validate = .error err) : g.Fault err := by
  simp only [validate] at h
  by_cases hempty : g.blocks.isEmpty = true
  · rw [if_pos hempty] at h
    cases h
    exact .empty (Array.isEmpty_iff_size_eq_zero.1 hempty)
  by_cases hentry : g.blocks.size ≤ g.entry
  · rw [if_neg hempty, if_pos hentry] at h
    cases h
    exact .entry hentry
  rw [if_neg hempty, if_neg hentry] at h
  obtain ⟨n, _, hn⟩ := exists_of_forM_error h
  rcases checkExits_error hn with ⟨e, he, hle, rfl⟩ | ⟨⟨hne, hc⟩, rfl⟩
  · exact .target he hle
  · exact .exits hne fun hw => hc (wellEnded_iff_complete.1 hw)

/-- A graph that passes `validate` has no fault. -/
lemma not_fault_of_validate {err : StructureError} (h : g.validate = .ok ()) : ¬ g.Fault err := by
  obtain ⟨hg, hexits⟩ := validate_eq_ok h
  intro hf
  cases hf with
  | empty hsize => exact absurd (hsize ▸ hg.entry) (Nat.not_lt_zero _)
  | entry hle => exact absurd hg.entry (Nat.not_lt_of_le hle)
  | target he hle => exact absurd (hg.target (edge_of_mem he)) (Nat.not_lt_of_le hle)
  | exits hne hw => exact hw (wellEnded_iff_complete.2 ((hexits _).resolve_left hne))

/-- Nothing but `validate` makes structuring fail. -/
lemma structurize_error (hplain : g.Plain) {err : StructureError} :
    g.structurize = .error err ↔ g.validate = .error err := by
  cases hval : g.validate with
  | error e =>
    have hs : g.structurize = .error e := by
      rw [structurize_eq, hval]
      rfl
    rw [hs, Except.error.injEq, Except.error.injEq]
  | ok u =>
    obtain ⟨x, hx, _⟩ := structurize_ends hval hplain
    rw [hx]
    constructor <;> intro h <;> cases h

/-! ### Exits that lead back -/

/-- An exit that leads back: its target is not after its source in the order in which blocks are
laid out, or lies on a path to the source that passes no block twice, as the target of an exit that
retreats in any depth-first search does. -/
def Retreats (g : Graph B C) (u w : Nat) : Prop :=
  g.Edge u w ∧
    ((g.positions g.reversePostorder).getD w 0 ≤ (g.positions g.reversePostorder).getD u 0 ∨
      ∃ p, g.SimplePath p u ∧ w ∈ p)

/-- In the graph that is laid out, exits that lead back lead to dominators. -/
lemma dom_of_retreats (hg : g.InRange) (hplain : g.Plain) {u w : Nat}
    (h : g.prepared.Retreats u w) : g.prepared.Dom w u := by
  obtain ⟨hrooted, hred⟩ := reducible_prepared hg hplain
  obtain ⟨he, hle | ⟨p, hp, hw⟩⟩ := h
  · have hlaid : g.prepared.Laid g.prepared.reversePostorder :=
      ⟨hrooted, ordered_reversePostorder hrooted.toInRange, hred⟩
    -- no path at all leads to a block that is not listed
    by_cases hu : u ∈ g.prepared.reversePostorder
    · rw [hlaid.getD_positions hu, hlaid.getD_positions (hlaid.mem_of_edge hu he)] at hle
      exact hlaid.dom_of_retreating hu he hle
    · exact fun hav => hu ((hlaid.ordered.mem u).2 hav.leads)
  · exact hred.dom_of_simplePath hrooted hp hw he

/-- Structuring fails exactly on graphs with a fault, with an error that names one, and never for
want of a label, because a block is placed twice, or because a cycle kept several entries. In the
graph that is laid out every exit that leads back leads to a dominator of its source. -/
theorem structurize_total (hbuilt : g.Built) :
    ((∃ err, g.structurize = .error err) ↔ ∃ err, g.Fault err) ∧
      (∀ err, g.structurize = .error err → g.Fault err) ∧
      (∀ u w, g.structurize ≠ .error (.missingLabel u w)) ∧
      (∀ n, g.structurize ≠ .error (.duplicatePlacement n)) ∧
      (∀ u w, g.structurize ≠ .error (.irreducible u w)) ∧
      ((∀ err, ¬ g.Fault err) → ∀ u w, g.prepared.Retreats u w → g.prepared.Dom w u) := by
  have hfault : ∀ err, g.structurize = .error err → g.Fault err := fun err h =>
    fault_of_validate ((structurize_error hbuilt.plain).1 h)
  have hval : (∀ err, ¬ g.Fault err) → g.validate = .ok () := by
    intro hno
    cases h : g.validate with
    | error err => exact absurd (fault_of_validate h) (hno err)
    | ok u => rfl
  refine ⟨⟨fun ⟨err, h⟩ => ⟨err, hfault err h⟩, fun ⟨err, hf⟩ => ?_⟩, hfault, fun u w h => ?_,
    fun n h => ?_, fun u w h => ?_, fun hno u w hr => ?_⟩
  · cases h : g.validate with
    | error e => exact ⟨e, (structurize_error hbuilt.plain).2 h⟩
    | ok u => exact absurd hf (not_fault_of_validate h)
  · cases hfault _ h
  · cases hfault _ h
  · cases hfault _ h
  · exact dom_of_retreats (validate_eq_ok (hval hno)).1 hbuilt.plain hr

/-- A second unconditional exit is a fault, and the graph is refused; without it the exit that leads
back into the crossing cycle leads to the dispatcher, which dominates its source. -/
theorem structurize_total_crossing :
    (∃ err, (crossing.addExit 3 none 0 |>.addExit 3 none 1).structurize = .error err) ∧
      ∃ u w, crossing.prepared.Retreats u w ∧ crossing.prepared.Dom w u := by
  have hbuilt : crossing.Built := by
    repeat' constructor
  constructor
  · refine (structurize_total ((hbuilt.addExit 3 none 0).addExit 3 none 1)).1.2
      ⟨.malformedExits 3, .exits (by decide) fun hw => ?_⟩
    cases wellEnded_iff_complete.1 hw with
    | test ht _ => cases ht
  · have hretreats : crossing.prepared.Retreats 1 4 := by
      refine ⟨?_, .inl ?_⟩
      · change 4 ∈ crossing.prepared.targets 1
        decide +kernel
      · decide +kernel
    exact ⟨1, 4, hretreats, (structurize_total hbuilt).2.2.2.2.2
      (fun err => not_fault_of_validate rfl) 1 4 hretreats⟩

end Graph

end Dynarec.Flow
