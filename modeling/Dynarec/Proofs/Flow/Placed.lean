import Dynarec.Proofs.Flow.Outcome

/-!
# Meaning of placed blocks

When blocks are placed along any assignment of dominance facts and no label is missing, the shape
does what following the graph does. That labels are found is not a matter of this module: what is
placed without an error is right, whatever the facts were.
-/

namespace Dynarec.Flow

open Shape (Visitor)

variable {B C ε σ : Type}

/-- Exits of which the last one, and no other one, is taken without a test. -/
inductive Complete : List (Exit C) → Prop where
  | last {e : Exit C} : e.test = none → Complete [e]
  | test {e : Exit C} {t : Test C} {rest : List (Exit C)} :
    e.test = some t → Complete rest → Complete (e :: rest)

/-- A block goes on by one of its exits, or has none and returns in its body. -/
def Graph.Proceeds (g : Graph B C) (v : Visitor B C ε σ) (n : Nat) : Prop :=
  Complete (g.exits n) ∨ g.exits n = [] ∧ ∀ s s', g.runBody v n s ≠ .ok none s'

/-- How many jumps back are charged on the way from a block to another: one if the other is no later
in the order. -/
def Dominance.back (d : Dominance) (n t : Nat) : Nat :=
  if d.number.getD t 0 ≤ d.number.getD n 0 then 1 else 0

/-- A step of placing that succeeds has done both of its parts. -/
lemma PlaceM.of_bind_ok {α β : Type} {x : PlaceM α} {f : α → PlaceM β} {st : Placing}
    {r : β × Placing} (h : (x >>= f) st = .ok r) : ∃ a st₁, x st = .ok (a, st₁) ∧ f a st₁ = .ok r := by
  change (x st >>= fun p => f p.1 p.2) = .ok r at h
  cases hx : x st with
  | error e => rw [hx] at h; cases h
  | ok p => rw [hx] at h; exact ⟨p.1, p.2, rfl, h⟩

/-! ### What placing does -/

namespace Graph

variable {g : Graph B C} {d : Dominance} {place : List Frame → Nat → PlaceM (Shape B C)}
  {frames : List Frame} {n : Nat} {st st' : Placing} {x : Shape B C}

/-- A jump that is placed leads to an enclosing construct and changes nothing. -/
lemma jump_ok {t : Nat} {kind : FrameKind} (h : jump frames n t kind st = .ok (x, st')) :
    ∃ f ∈ frames, f.target = t ∧ f.kind = kind ∧ x = .br f.label ∧ st' = st := by
  unfold jump at h
  cases hf : frames.find? fun f => f.target == t && f.kind == kind with
  | none => rw [hf] at h; cases h
  | some f =>
    have hp := List.find?_some hf
    simp only [Bool.and_eq_true, beq_iff_eq] at hp
    rw [hf] at h
    cases h
    exact ⟨f, List.mem_of_find?_eq_some hf, hp.1, hp.2, rfl, rfl⟩

/-- A block that is noted as placed had not been placed. -/
lemma claim_eq_ok {u : Unit} (h : claim n st = .ok (u, st')) :
    st.placed.getD n true = false ∧
      st' = { st with placed := st.placed.setIfInBounds n true } := by
  obtain ⟨s, st₁, hget, h⟩ := PlaceM.of_bind_ok h
  cases hget
  split at h
  · cases h
  · next hn =>
    cases h
    exact ⟨by simpa using hn, rfl⟩

/-- The target of an exit is placed where the exit is: no label leads there. -/
def Stays (d : Dominance) (n t : Nat) : Prop :=
  d.number.getD n 0 < d.number.getD t 0 ∧ d.merge.getD t false ≠ true

/-- A block goes on at another one that is placed there, or by a jump to an enclosing construct: a
loop if the other one is no later. -/
lemma placeTarget_eq_ok {t : Nat} (h : placeTarget d place frames n t st = .ok (x, st')) :
    (Stays d n t ∧ place frames t st = .ok (x, st')) ∨
      ∃ f ∈ frames, f.target = t ∧
        (f.kind = .loop ↔ d.number.getD t 0 ≤ d.number.getD n 0) ∧ ¬ Stays d n t ∧
        x = .br f.label ∧ st' = st := by
  unfold placeTarget at h
  split at h
  · next hle =>
    obtain ⟨f, hf, ht, hk, hx, hst⟩ := jump_ok h
    exact .inr ⟨f, hf, ht, iff_of_true hk hle, fun hs => hs.1.not_ge hle, hx, hst⟩
  · next hle =>
    split at h
    · next hm =>
      obtain ⟨f, hf, ht, hk, hx, hst⟩ := jump_ok h
      exact .inr ⟨f, hf, ht, iff_of_false (by rw [hk]; decide) hle, fun hs => hs.2 hm, hx, hst⟩
    · next hm => exact .inl ⟨⟨Nat.lt_of_not_le hle, hm⟩, h⟩

/-- The dispatch variable is set before the block goes on. -/
lemma placeExit_eq_ok {e : Exit C} (h : placeExit d place frames n e st = .ok (x, st')) :
    ∃ next, placeTarget d place frames n e.target st = .ok (next, st') ∧
      x = e.dispatch.elim next fun id => .ofList [.setDispatch id, next] := by
  obtain ⟨next, st₁, hnext, h⟩ := PlaceM.of_bind_ok h
  cases hd : e.dispatch <;> rw [hd] at h <;> cases h <;> exact ⟨_, hnext, rfl⟩

/-- The exits after the first one are placed before it. -/
lemma placeExits_cons_eq_ok {e : Exit C} {rest : List (Exit C)}
    (h : placeExits d place frames n (e :: rest) st = .ok (x, st')) :
    ∃ otherwise next st₁, placeExits d place frames n rest st = .ok (otherwise, st₁) ∧
      placeExit d place frames n e st₁ = .ok (next, st') ∧
      x = e.test.elim next fun test => .cond test next otherwise := by
  obtain ⟨otherwise, st₁, hrest, h⟩ := PlaceM.of_bind_ok h
  obtain ⟨next, st₂, hnext, h⟩ := PlaceM.of_bind_ok h
  cases ht : e.test <;> simp only [ht] at h <;> cases h <;>
    exact ⟨_, _, st₁, hrest, hnext, rfl⟩

/-- A block that no other one is to follow is its body and what its exits lead to. -/
lemma placeWithin_nil_eq_ok (h : g.placeWithin d place n [] frames st = .ok (x, st')) :
    ∃ next, placeExits d place frames n (g.exits n) st = .ok (next, st') ∧
      x = .ofList ((g.body? n).toList.map .body ++ [next]) := by
  obtain ⟨next, st₁, hnext, h⟩ := PlaceM.of_bind_ok h
  cases h
  refine ⟨next, hnext, ?_⟩
  unfold body?
  rcases g.blocks[n]? with _ | ⟨_ | b, _, _⟩ <;> rfl

/-- A block that another one follows stands in a new construct before it. -/
lemma placeWithin_cons_eq_ok {y : Nat} {rest : List Nat}
    (h : g.placeWithin d place n (y :: rest) frames st = .ok (x, st')) :
    ∃ inner follow st₁, g.placeWithin d place n rest (⟨y, .block, st.nextLabel⟩ :: frames)
        { st with nextLabel := st.nextLabel + 1 } = .ok (inner, st₁) ∧
      place frames y st₁ = .ok (follow, st') ∧
      x = .ofList [.block st.nextLabel inner, follow] := by
  obtain ⟨l, st₁, hlabel, h⟩ := PlaceM.of_bind_ok h
  cases hlabel
  obtain ⟨inner, st₂, hinner, h⟩ := PlaceM.of_bind_ok h
  obtain ⟨follow, st₃, hfollow, h⟩ := PlaceM.of_bind_ok h
  cases h
  exact ⟨inner, follow, st₂, hinner, hfollow, rfl⟩

/-- A block that had not been placed is, in a loop of its own if exits go back to it. -/
lemma placeTree_succ_eq_ok {fuel : Nat}
    (h : g.placeTree d (fuel + 1) frames n st = .ok (x, st')) :
    st.placed.getD n true = false ∧
      ((∃ inner, g.placeWithin d (g.placeTree d fuel) n
          ((d.children.getD n []).filter fun y => d.merge.getD y false)
          (⟨n, .loop, st.nextLabel⟩ :: frames)
          ⟨st.nextLabel + 1, st.placed.setIfInBounds n true⟩ = .ok (inner, st') ∧
        x = .loop st.nextLabel inner) ∨
      g.placeWithin d (g.placeTree d fuel) n
        ((d.children.getD n []).filter fun y => d.merge.getD y false) frames
        { st with placed := st.placed.setIfInBounds n true } = .ok (x, st')) := by
  obtain ⟨u, st₁, hclaim, h⟩ := PlaceM.of_bind_ok h
  obtain ⟨hn, rfl⟩ := claim_eq_ok hclaim
  refine ⟨hn, ?_⟩
  split at h
  · obtain ⟨l, st₂, hlabel, h⟩ := PlaceM.of_bind_ok h
    cases hlabel
    obtain ⟨inner, st₃, hinner, h⟩ := PlaceM.of_bind_ok h
    cases h
    exact .inl ⟨inner, hinner, rfl⟩
  · exact .inr h

/-- A new construct takes a label above those of the constructs around it. -/
lemma label_lt_cons {t k : Nat} {kind : FrameKind} (hl : ∀ f ∈ frames, f.label < k) :
    ∀ f ∈ (⟨t, kind, k⟩ : Frame) :: frames, f.label < k + 1 := by
  intro f hf
  rcases List.mem_cons.1 hf with rfl | hf
  · exact Nat.lt_succ_self _
  · exact (hl f hf).trans (Nat.lt_succ_self _)

end Graph

/-! ### What is placed does what the graph does -/

section

variable {g : Graph B C} {v : Visitor B C ε σ} {d : Dominance} {P : Nat → Prop}

/-- A way of placing blocks that satisfy a predicate gives shapes that do what following the graph
does, and takes only new labels. -/
def PlacesWell (g : Graph B C) (v : Visitor B C ε σ) (d : Dominance) (P : Nat → Prop)
    (place : List Frame → Nat → PlaceM (Shape B C)) : Prop :=
  ∀ frames n st x st', P n → (∀ f ∈ frames, f.label < st.nextLabel) →
    place frames n st = .ok (x, st') →
    Simulates g v d.back frames x (g.follow v d.back · n) ∧ st.nextLabel ≤ st'.nextLabel

variable {place : List Frame → Nat → PlaceM (Shape B C)}

/-- An exit is placed well. -/
lemma placeExit_simulates (hplace : PlacesWell g v d P place) {frames : List Frame} {n : Nat}
    {e : Exit C} {st st' : Placing} {x : Shape B C} (he : P e.target)
    (hl : ∀ f ∈ frames, f.label < st.nextLabel)
    (h : Graph.placeExit d place frames n e st = .ok (x, st')) :
    Simulates g v d.back frames x (g.cross v d.back n e) ∧ st.nextLabel ≤ st'.nextLabel := by
  obtain ⟨next, hnext, rfl⟩ := Graph.placeExit_eq_ok h
  have hsim : Simulates g v d.back frames next (g.cross v d.back n { e with dispatch := none }) ∧
      st.nextLabel ≤ st'.nextLabel := by
    rcases Graph.placeTarget_eq_ok hnext with ⟨hstays, hnext⟩ | ⟨f, hf, ht, hk, -, rfl, rfl⟩
    · obtain ⟨hs, hle⟩ := hplace _ _ _ _ _ he hl hnext
      exact ⟨.inline rfl (if_neg hstays.1.not_ge) hs, hle⟩
    · exact ⟨.jump hf rfl ht (if_congr hk.symm rfl rfl), le_rfl⟩
  cases hd : e.dispatch with
  | some id => exact ⟨.setDispatch hd hsim.1, hsim.2⟩
  | none =>
    have : { e with dispatch := none } = e := by rw [← hd]
    rw [this] at hsim
    exact hsim

/-- The exits of a block are placed well. -/
lemma placeExits_simulates (hplace : PlacesWell g v d P place) {frames : List Frame} {n : Nat}
    {exits : List (Exit C)} {st st' : Placing} {x : Shape B C} (hc : Complete exits)
    (he : ∀ e ∈ exits, P e.target) (hl : ∀ f ∈ frames, f.label < st.nextLabel)
    (h : Graph.placeExits d place frames n exits st = .ok (x, st')) :
    Simulates g v d.back frames x (g.leave v d.back n exits) ∧ st.nextLabel ≤ st'.nextLabel := by
  induction hc generalizing x st' with
  | @last e ht =>
    obtain ⟨o, next, st₁, ho, hn, rfl⟩ := Graph.placeExits_cons_eq_ok h
    cases ho
    obtain ⟨hs, hle⟩ := placeExit_simulates hplace (he e (by simp)) hl hn
    rw [ht]
    exact ⟨.exit_last ht hs, hle⟩
  | @test e t rest ht _ ih =>
    obtain ⟨o, next, st₁, ho, hn, rfl⟩ := Graph.placeExits_cons_eq_ok h
    obtain ⟨hos, hole⟩ := ih (fun e' he' => he e' (by simp [he'])) ho
    obtain ⟨hs, hle⟩ := placeExit_simulates hplace (he e (by simp))
      (fun f hf => (hl f hf).trans_le hole) hn
    rw [ht]
    exact ⟨.exit_test ht hs hos, hole.trans hle⟩

/-- A block whose body always returns needs no exit. -/
lemma Simulates.returns {frames : List Frame} {n : Nat} {ticks : Nat → Nat → Nat}
    (hret : ∀ s s', g.runBody v n s ≠ .ok none s') :
    Simulates g v ticks frames (.ofList ((g.body? n).toList.map .body ++ [.empty])) (g.follow v ticks · n) := by
  have hrun : ∀ fuel d s, (∃ x s₁, g.runBody v n s = .ok (some x) s₁ ∧
      Shape.run v fuel (.ofList ((g.body? n).toList.map .body ++ [.empty])) d s = .ok (.ret x, d) s₁ ∧
      ∀ m, g.follow v ticks m n d s = .ok (some x) s₁) ∨
      ∃ e s₁, g.runBody v n s = .error e s₁ ∧
      Shape.run v fuel (.ofList ((g.body? n).toList.map .body ++ [.empty])) d s = .error e s₁ ∧
      ∀ m, g.follow v ticks m n d s = .error e s₁ := by
    intro fuel d s
    rw [run_body_items]
    simp only [Graph.follow_eq]
    cases hb : g.runBody v n s with
    | error e s₁ =>
      exact .inr ⟨e, s₁, rfl, EStateM.bind_error hb, fun m => EStateM.bind_error hb⟩
    | ok r s₁ =>
      cases r with
      | none => exact absurd hb (hret s s₁)
      | some x => exact .inl ⟨x, s₁, rfl, EStateM.bind_ok hb, fun m => EStateM.bind_ok hb⟩
  constructor
  · intro fuel d s
    obtain ⟨x, s₁, _, hr, hf⟩ | ⟨e, s₁, _, hr, hf⟩ := hrun fuel d s
    · rw [hr]
      exact ⟨trivial, 0, hf 0⟩
    · rw [hr]
      cases e with
      | error e => exact ⟨trivial, 0, hf 0⟩
      | outOfFuel => trivial
  · intro m fuel d s r _ hsrc hstop
    obtain ⟨x, s₁, _, hr, hf⟩ | ⟨e, s₁, _, hr, hf⟩ := hrun fuel d s
    · rw [hr]
      exact hsrc.symm.trans (hf m)
    · rw [hr]
      obtain rfl : r = _ := hsrc.symm.trans (hf m)
      cases e with
      | error e => rfl
      | outOfFuel => exact hstop

/-- A block with the blocks that follow it is placed well. -/
lemma placeWithin_simulates (hplace : PlacesWell g v d P place) {n : Nat}
    (hproc : g.Proceeds v n) (he : ∀ e ∈ g.exits n, P e.target) {ys : List Nat}
    (hys : ∀ y ∈ ys, P y) {frames : List Frame} {st st' : Placing} {x : Shape B C}
    (hl : ∀ f ∈ frames, f.label < st.nextLabel)
    (h : g.placeWithin d place n ys frames st = .ok (x, st')) :
    Simulates g v d.back frames x (g.follow v d.back · n) ∧ st.nextLabel ≤ st'.nextLabel := by
  induction ys generalizing frames st st' x with
  | nil =>
    obtain ⟨next, hn, rfl⟩ := Graph.placeWithin_nil_eq_ok h
    rcases hproc with hc | ⟨hnil, hret⟩
    · obtain ⟨hs, hle⟩ := placeExits_simulates hplace hc he hl hn
      exact ⟨.body hs, hle⟩
    · rw [hnil] at hn
      cases hn
      exact ⟨.returns hret, le_rfl⟩
  | cons y rest ih =>
    obtain ⟨inner, follow, st₁, hi, hf, rfl⟩ := Graph.placeWithin_cons_eq_ok h
    obtain ⟨his, hile⟩ := ih (fun y' hy' => hys y' (by simp [hy'])) (Graph.label_lt_cons hl) hi
    have hle : st.nextLabel ≤ st₁.nextLabel := (Nat.le_succ _).trans hile
    obtain ⟨hfs, hfle⟩ := hplace _ _ _ _ _ (hys y (by simp)) (fun f hf => (hl f hf).trans_le hle) hf
    exact ⟨.block (fun f hf => (hl f hf).ne) his hfs, hle.trans hfle⟩

end

/-- A block with all that it dominates is placed well. -/
theorem placeTree_simulates {g : Graph B C} {v : Visitor B C ε σ} {d : Dominance} {P : Nat → Prop}
    (hproc : ∀ n, P n → g.Proceeds v n) (he : ∀ n, P n → ∀ e ∈ g.exits n, P e.target)
    (hchildren : ∀ n, ∀ y ∈ d.children.getD n [], P y) (fuel : Nat) :
    PlacesWell g v d P (g.placeTree d fuel) := by
  induction fuel with
  | zero => intro frames n st x st' _ _ h; cases h
  | succ fuel ih =>
    intro frames n st x st' hn hl h
    have hmerges : ∀ y ∈ (d.children.getD n []).filter fun y => d.merge.getD y false, P y :=
      fun y hy => hchildren n y (List.mem_filter.1 hy).1
    rcases (Graph.placeTree_succ_eq_ok h).2 with ⟨inner, hi, rfl⟩ | h
    · obtain ⟨hs, hle⟩ := placeWithin_simulates ih (hproc n hn) (he n hn) hmerges
        (Graph.label_lt_cons hl) hi
      exact ⟨.loop (fun f hf => (hl f hf).ne) hs, (Nat.le_succ _).trans hle⟩
    · have hl : ∀ f ∈ frames, f.label <
          ({ st with placed := st.placed.setIfInBounds n true } : Placing).nextLabel := hl
      obtain ⟨hs, hle⟩ := placeWithin_simulates ih (hproc n hn) (he n hn) hmerges hl h
      exact ⟨hs, hle⟩

end Dynarec.Flow
