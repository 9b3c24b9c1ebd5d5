import Dynarec.Proofs.Flow.Headers
import Dynarec.Proofs.Flow.Layout
import Dynarec.Proofs.Flow.Prepare

/-!
# Structured forms

`Graph.structurize` gives a shape for every graph that passes `Graph.validate`, and running the shape
does what running the graph does, where every exit that leads back is charged as a jump back.
-/

namespace Dynarec.Flow

variable {B C ε σ : Type} {v : Shape.Visitor B C ε σ}

/-- A walk gives the value that the shape returns. -/
lemma walk_apply (v : Shape.Visitor B C ε σ) (fuel : Nat) (x : Shape B C) (s : σ) :
    x.walk v fuel s = match x.run v fuel 0 s with
      | .ok (.ret y, _) s' => .ok (some y) s'
      | .ok _ s' => .ok none s'
      | .error e s' => .error e s' := by
  unfold Shape.walk
  cases hrun : x.run v fuel 0 s with
  | error e s₁ => rw [EStateM.bind_error hrun]
  | ok p s₁ =>
    rw [EStateM.bind_ok hrun]
    obtain ⟨c, d⟩ := p
    cases c <;> rfl

/-- A shape that stands alone for a run gives its results. -/
lemma Simulates.finishes_walk {g : Graph B C} {ticks : Nat → Nat → Nat} {x : Shape B C}
    {src : Nat → Nat → Run ε σ (Option UInt64)} (h : Simulates g v ticks [] x src) (s : σ)
    (r : EStateM.Result (Halt ε) σ (Option UInt64)) :
    Run.Finishes (x.walk v ·) s r ↔ Run.Finishes (src · 0) s r := by
  constructor
  · rintro ⟨hr, fuel, hwalk⟩
    have hsound := h.sound fuel 0 s
    change Shape.walk v fuel x s = r at hwalk
    rw [walk_apply] at hwalk
    cases hrun : x.run v fuel 0 s with
    | error e s₁ =>
      rw [hrun] at hsound hwalk
      cases hwalk
      cases e with
      | error e => exact hsound
      | outOfFuel => exact hr.elim
    | ok p s₁ =>
      rw [hrun] at hsound hwalk
      obtain ⟨c, d⟩ := p
      cases c with
      | next => exact hsound.elim
      | ret y => cases hwalk; exact hsound
      | jump l =>
        obtain ⟨f, hf, _⟩ := hsound
        cases hf
  · rintro ⟨hr, m, hm⟩
    have hcomplete := h.complete m (m + 1) 0 s r (Nat.lt_succ_self m) hm hr
    refine ⟨hr, m + 1, ?_⟩
    change Shape.walk v (m + 1) x s = r
    rw [walk_apply]
    cases hrun : x.run v (m + 1) 0 s with
    | error e s₁ =>
      rw [hrun] at hcomplete
      cases e with
      | error e => exact hcomplete.symm
      | outOfFuel => exact hcomplete.elim
    | ok p s₁ =>
      rw [hrun] at hcomplete
      obtain ⟨c, d⟩ := p
      cases c with
      | next => exact hcomplete.elim
      | ret y => exact hcomplete.symm
      | jump l =>
        obtain ⟨f, hf, _⟩ := hcomplete
        cases hf

namespace Graph

variable {g : Graph B C}

/-! ### Well-formed graphs -/

lemma complete_of_checkExits {count n : Nat} {exits : List (Exit C)}
    (h : checkExits count n exits = .ok ()) :
    (exits = [] ∨ Complete exits) ∧ ∀ e ∈ exits, e.target < count := by
  induction exits with
  | nil => simp
  | cons e rest ih =>
    rw [checkExits] at h
    split at h
    · cases h
    · next hlt =>
      split at h
      · cases h
      · next htest =>
        obtain ⟨hc, ht⟩ := ih h
        refine ⟨.inr ?_, fun e' he' => ?_⟩
        · rcases hc with rfl | hc
          · exact .last (by simpa using htest)
          · have hne : rest ≠ [] := by rintro rfl; cases hc
            rw [List.isEmpty_eq_false_iff.2 hne] at htest
            cases ht : e.test with
            | none => simp [ht] at htest
            | some t => exact .test ht hc
        · rcases List.mem_cons.1 he' with rfl | he'
          · exact Nat.lt_of_not_le hlt
          · exact ht e' he'

lemma checkExits_of_complete {count n : Nat} {exits : List (Exit C)}
    (hc : exits = [] ∨ Complete exits) (ht : ∀ e ∈ exits, e.target < count) :
    checkExits count n exits = .ok () := by
  rcases hc with rfl | hc
  · rfl
  · induction hc with
    | @last e he =>
      have := ht e List.mem_cons_self
      simp [checkExits, he, Nat.not_le_of_lt this]
    | @test e t rest he hrest ih =>
      have := ht e List.mem_cons_self
      have hne : rest.isEmpty = false := by cases hrest <;> rfl
      rw [checkExits, if_neg (Nat.not_le_of_lt this), hne, he, if_neg (by simp)]
      exact ih fun e' he' => ht e' (List.mem_cons_of_mem _ he')

/-- A graph with exits as `validate` wants them passes it. -/
lemma validate_of_complete (hg : g.InRange)
    (hc : ∀ n, g.exits n = [] ∨ Complete (g.exits n)) : g.validate = .ok () := by
  have hsize := Nat.zero_lt_of_lt hg.entry
  have hempty : ¬ g.blocks.isEmpty = true := by
    rw [Array.isEmpty_iff_size_eq_zero]
    omega
  have hall : ∀ l : List Nat,
      (l.forM fun v => checkExits g.blocks.size v (g.exits v)) = .ok () := by
    intro l
    induction l with
    | nil => rfl
    | cons a l ih =>
      change (checkExits g.blocks.size a (g.exits a) >>= fun _ =>
        l.forM fun v => checkExits g.blocks.size v (g.exits v)) = .ok ()
      rw [checkExits_of_complete (hc a) fun e he => hg.target (edge_of_mem he)]
      exact ih
  simp only [validate]
  rw [if_neg hempty, if_neg (Nat.not_le_of_lt hg.entry)]
  exact hall _

/-- What `validate` checks. -/
lemma validate_eq_ok (h : g.validate = .ok ()) :
    g.InRange ∧ ∀ n, g.exits n = [] ∨ Complete (g.exits n) := by
  simp only [validate] at h
  by_cases hempty : g.blocks.isEmpty = true
  · rw [if_pos hempty] at h
    simp [bind, Except.bind] at h
  by_cases hentry : g.blocks.size ≤ g.entry
  · rw [if_neg hempty, if_pos hentry] at h
    simp [bind, Except.bind] at h
  rw [if_neg hempty, if_neg hentry] at h
  have hexits : ∀ n, n < g.blocks.size → checkExits g.blocks.size n (g.exits n) = .ok () := by
    have hall : ∀ l : List Nat, (l.forM fun v => checkExits g.blocks.size v (g.exits v)) =
        .ok () → ∀ n ∈ l, checkExits g.blocks.size n (g.exits n) = .ok () := by
      intro l
      induction l with
      | nil => simp
      | cons a l ih =>
        intro h n hn
        change (checkExits g.blocks.size a (g.exits a) >>= fun _ =>
          l.forM fun v => checkExits g.blocks.size v (g.exits v)) = .ok () at h
        cases ha : checkExits g.blocks.size a (g.exits a) with
        | error e => rw [ha] at h; cases h
        | ok u =>
          rw [ha] at h
          rcases List.mem_cons.1 hn with rfl | hn
          · exact ha
          · exact ih h n hn
    exact fun n hn => hall _ h n (List.mem_range.2 hn)
  refine ⟨⟨Nat.lt_of_not_le hentry, fun {u w} he => ?_⟩, fun n => ?_⟩
  · obtain ⟨e, he', rfl⟩ := List.mem_map.1 he
    exact (complete_of_checkExits (hexits u he.lt)).2 e he'
  · rcases Nat.lt_or_ge n g.blocks.size with hn | hn
    · exact (complete_of_checkExits (hexits n hn)).1
    · exact .inl (by rw [exits, Array.getElem?_eq_none hn])

/-! ### The structured form -/

/-- Every reachable block without exits has a body that always returns. -/
def Returns (g : Graph B C) (v : Shape.Visitor B C ε σ) : Prop :=
  ∀ n, g.Leads g.entry n → g.exits n = [] → ∀ s s', g.runBody v n s ≠ .ok none s'

/-- A step that succeeds is followed by the next one. -/
lemma bind_eq_of_ok {α β γ : Type} {x : Except γ α} {a : α} (h : x = .ok a) (f : α → Except γ β) :
    (x >>= f) = f a := by
  rw [h]
  rfl

/-- The structured form of a graph is that of the graph that is laid out. -/
lemma structurize_eq (g : Graph B C) : g.structurize = (do
    g.validate
    let d ← g.prepared.dominance
    let p ← g.prepared.placeTree d g.prepared.blocks.size [] g.prepared.entry
      ⟨0, Array.replicate g.prepared.blocks.size false⟩
    return p.1) := by
  unfold structurize prepared
  rfl

/-- The jumps back of the laid out form are the exits that lead back in the graph. -/
lemma Laid.back_eq_charges {order : List Nat} {d : Dominance} (h : g.Laid order)
    (hs : Sound g order d) {u w : Nat} (hu : u ∈ order) (he : g.Edge u w) :
    d.back u w = g.charges u w := by
  have hlive : g.Live u w := ⟨(h.ordered.mem u).1 hu, he⟩
  classical
  refine if_congr ?_ rfl rfl
  rw [hs.number u hu, hs.number w (h.mem_of_edge hu he), h.back_iff_dom hlive]
  exact ⟨h.dom_of_retreating hu he, h.idxOf_le hu⟩

/-- A valid graph of a program has a structured form, and walking it is running the graph, with a
charge for every exit that leads back. -/
theorem structurize_ends (hval : g.validate = .ok ()) (hplain : g.Plain) :
    ∃ x, g.structurize = .ok x ∧ ∀ {ε σ : Type} (v : Shape.Visitor B C ε σ), g.Returns v →
      ∀ s r, Run.Finishes (x.walk v ·) s r ↔ g.Ends v g.charges g.entry 0 s r := by
  obtain ⟨hg, hexits⟩ := validate_eq_ok hval
  obtain ⟨hrooted, hred⟩ := reducible_prepared hg hplain
  have hlaid : g.prepared.Laid g.prepared.reversePostorder :=
    ⟨hrooted, ordered_reversePostorder hrooted.toInRange, hred⟩
  obtain ⟨d, hd, hs⟩ := hlaid.sound_dominance rfl
  have hentry := hlaid.entry_mem
  have hlen : g.prepared.reversePostorder.length ≤ g.prepared.blocks.size := by
    have := (List.Nodup.subperm hlaid.ordered.nodup fun x hx =>
      List.mem_range.2 (hlaid.lt hx)).length_le
    simpa using this
  -- nothing lies outside of what the entry dominates, so no label is needed around it
  obtain ⟨x, st', hplace, -⟩ := places_placeTree (B := B) (C := C) hlaid hs hentry
    (show _ ≤ g.prepared.blocks.size + _ by omega) []
    ⟨0, Array.replicate g.prepared.blocks.size false⟩
    ⟨fun x _ _ k _ _ => .inl (dom_entry _ k), fun x _ _ t _ _ hn => absurd (dom_entry _ t) hn⟩
    (fun x hx _ => getD_true_eq_false.2 ⟨by simpa using hlaid.lt hx, getD_replicate ..⟩)
  refine ⟨x, ?_, fun v hret => ?_⟩
  · rw [structurize_eq, bind_eq_of_ok hval, bind_eq_of_ok hd, bind_eq_of_ok hplace]
    rfl
  · have hprep := prepared_prepared (v := v) hg hplain fun n hn => by
      rcases hexits n with hnil | hc
      · exact .inr ⟨hnil, hret n hn hnil⟩
      · exact .inl hc
    have hsim := (placeTree_simulates (v := v) (d := d)
      (P := (· ∈ g.prepared.reversePostorder))
      (fun n hn => hprep.proceeds n ((hlaid.ordered.mem n).1 hn))
      (fun n hn e he => hlaid.mem_of_edge hn (edge_of_mem he))
      (fun n y hy => ((hs.children n y).1 hy).1) g.prepared.blocks.size [] _ _ _ _ hentry
      (by simp) hplace).1
    intro s r
    rw [hsim.finishes_walk, ← ends_iff_finishes, hprep.ends]
    exact ends_congr (P := (· ∈ g.prepared.reversePostorder)) (fun _ _ _ _ => rfl)
      (fun n hn e he => hlaid.mem_of_edge hn (edge_of_mem he))
      (fun n hn e he => (hlaid.back_eq_charges hs hn (edge_of_mem he)).symm) hentry

end Graph

end Dynarec.Flow
