import Dynarec.Flow.Placement
import Dynarec.Proofs.Flow.Follow
import Dynarec.Proofs.Shape.Sequence

/-!
# Shapes that stand for runs of a graph

`Simulates` says that a shape, placed inside some constructs, does what a bounded run does: it gives
the same value or error, or it jumps to the label of one of the constructs at a point from which the
run goes on at the block of that construct. One half reads a run off the run of the shape, the other
half a run of the shape off a run; the second one counts, so that loops can be followed by induction
on the fuel.
-/

namespace Dynarec.Flow

open Shape (Control Visitor)

variable {B C ε σ : Type}

/-- The body of a block. -/
def Graph.body? (g : Graph B C) (n : Nat) : Option B := g.blocks[n]?.bind Block.body

/-- The result of a shape among the results of a run that it stands for: `fin` is what the run may
end with, `cont` where it may be when control jumps to the label of a construct, and `stuck` whether
the shape may have reached its bound. Control never reaches the end of the shape. -/
def Outcome (frames : List Frame) (fin : EStateM.Result (Halt ε) σ (Option UInt64) → Prop)
    (cont : Frame → Nat → σ → Prop) (stuck : Prop) :
    EStateM.Result (Halt ε) σ (Control × Nat) → Prop
  | .ok (.next, _) _ => False
  | .ok (.ret x, _) s => fin (.ok (some x) s)
  | .ok (.jump l, d) s => ∃ f ∈ frames, f.label = l ∧ cont f d s
  | .error (.error e) s => fin (.error (.error e) s)
  | .error .outOfFuel _ => stuck

/-- A result stands for the results of a run also when less is known of them. -/
lemma Outcome.mono {frames : List Frame}
    {fin fin' : EStateM.Result (Halt ε) σ (Option UInt64) → Prop}
    {cont cont' : Frame → Nat → σ → Prop} {stuck stuck' : Prop}
    {r : EStateM.Result (Halt ε) σ (Control × Nat)} (h : Outcome frames fin cont stuck r)
    (hfin : ∀ r, fin r → fin' r) (hcont : ∀ f ∈ frames, ∀ d s, cont f d s → cont' f d s)
    (hstuck : stuck → stuck') : Outcome frames fin' cont' stuck' r := by
  match r, h with
  | .ok (.ret x, _) s, h => exact hfin _ h
  | .ok (.jump l, d) s, ⟨f, hf, hl, hc⟩ => exact ⟨f, hf, hl, hcont f hf d s hc⟩
  | .error (.error e) s, h => exact hfin _ h
  | .error .outOfFuel _, h => exact hstuck h

section

variable (g : Graph B C) (v : Visitor B C ε σ) (ticks : Nat → Nat → Nat)

/-- Go on where the label of a construct leads: to the start of a loop, which is charged, or to the
block that follows. -/
def arrive (f : Frame) (fuel d : Nat) : Run ε σ (Option UInt64) :=
  match f.kind with
  | .loop => do
    v.backEdge
    g.follow v ticks fuel f.target d
  | .block => g.follow v ticks fuel f.target d

/-- A shape inside some constructs does what a run does that is bounded by fuel and starts from a
value of the dispatch variable. -/
structure Simulates (frames : List Frame) (x : Shape B C)
    (src : Nat → Nat → Run ε σ (Option UInt64)) : Prop where
  sound : ∀ fuel d s, Outcome frames (Run.Finishes (src · d) s)
    (fun f d' s' => ∀ r, Run.Finishes (arrive g v ticks f · d') s' r → Run.Finishes (src · d) s r)
    True (x.run v fuel d s)
  complete : ∀ m fuel d s r, m < fuel → src m d s = r → Run.Stopped r →
    Outcome frames (r = ·) (fun f d' s' => ∃ m' < m, arrive g v ticks f m' d' s' = r)
      False (x.run v fuel d s)

variable {g v ticks}

/-- The innermost construct is the only one with its label. -/
lemma frame_eq {frames : List Frame} {f f₀ : Frame} (hl : ∀ f ∈ frames, f.label ≠ f₀.label)
    (hf : f ∈ f₀ :: frames) (hfl : f.label = f₀.label) : f = f₀ := by
  rcases List.mem_cons.1 hf with hf | hf
  · exact hf
  · exact absurd hfl (hl f hf)

/-- A construct with another label than the innermost one is further out. -/
lemma mem_frames {frames : List Frame} {f f₀ : Frame} (hf : f ∈ f₀ :: frames)
    (hfl : f.label ≠ f₀.label) : f ∈ frames := by
  rcases List.mem_cons.1 hf with rfl | hf
  · exact absurd rfl hfl
  · exact hf

/-- What follows the inside of a construct runs when its label is jumped to. Other jumps leave the
construct. -/
lemma Outcome.bind {frames : List Frame} {f₀ : Frame}
    {fin : EStateM.Result (Halt ε) σ (Option UInt64) → Prop} {cont : Frame → Nat → σ → Prop}
    {stuck : Prop} {x : Run ε σ (Control × Nat)} {k : Control × Nat → Run ε σ (Control × Nat)}
    {s : σ} (hl : ∀ f ∈ frames, f.label ≠ f₀.label) (h : Outcome (f₀ :: frames) fin cont stuck (x s))
    (hjump : ∀ d s', cont f₀ d s' → Outcome frames fin cont stuck (k (.jump f₀.label, d) s'))
    (hleft : ∀ c d, c ≠ .next → c ≠ .jump f₀.label → k (c, d) = pure (c, d)) :
    Outcome frames fin cont stuck ((x >>= k) s) := by
  cases hx : x s with
  | error e s₁ =>
    rw [hx] at h
    rw [EStateM.bind_error hx]
    cases e <;> exact h
  | ok r s₁ =>
    rw [hx] at h
    rw [EStateM.bind_ok hx]
    obtain ⟨c, d⟩ := r
    cases c with
    | next => exact h.elim
    | ret y =>
      rw [hleft _ _ (by simp) (by simp)]
      exact h
    | jump l =>
      obtain ⟨f, hf, rfl, hcont⟩ := h
      by_cases hfl : f.label = f₀.label
      · obtain rfl := frame_eq hl hf hfl
        exact hjump d s₁ hcont
      · rw [hleft _ _ (by simp) (by simpa using hfl)]
        exact ⟨f, mem_frames hf hfl, rfl, hcont⟩

/-- A result that stands for a run stands also for a run that goes on as that one does. -/
lemma Outcome.before {frames : List Frame} {src src' : Nat → Run ε σ (Option UInt64)} {s s' : σ}
    {p : EStateM.Result (Halt ε) σ (Control × Nat)}
    (h : Outcome frames (Run.Finishes src s)
      (fun f d s₁ => ∀ r, Run.Finishes (arrive g v ticks f · d) s₁ r → Run.Finishes src s r) True p)
    (hsrc : ∀ r, Run.Finishes src s r → Run.Finishes src' s' r) :
    Outcome frames (Run.Finishes src' s')
      (fun f d s₁ => ∀ r, Run.Finishes (arrive g v ticks f · d) s₁ r → Run.Finishes src' s' r)
      True p :=
  h.mono hsrc (fun _ _ _ _ hc r hr => hsrc r (hc r hr)) id

/-- A result that stands for a run stands also for one with more fuel. -/
lemma Outcome.within {frames : List Frame} {m m' : Nat}
    {r : EStateM.Result (Halt ε) σ (Option UInt64)} {p : EStateM.Result (Halt ε) σ (Control × Nat)}
    (h : Outcome frames (r = ·) (fun f d s => ∃ k < m', arrive g v ticks f k d s = r) False p)
    (hm : m' ≤ m) :
    Outcome frames (r = ·) (fun f d s => ∃ k < m, arrive g v ticks f k d s = r) False p := by
  refine h.mono (fun _ => id) ?_ id
  rintro f _ d s ⟨k, hk, hc⟩
  exact ⟨k, hk.trans_le hm, hc⟩

/-- What a shape does first stands for what a run does first, if what follows does. -/
lemma Outcome.sound_bind {α : Type} {frames : List Frame} {m : Run ε σ α}
    {k : α → Run ε σ (Control × Nat)} {src : Nat → Run ε σ (Option UInt64)}
    {rest : α → Nat → Run ε σ (Option UInt64)} {s : σ}
    (hsrc : ∀ fuel, src fuel = m >>= fun a => rest a fuel)
    (h : ∀ a s₁, Outcome frames (Run.Finishes (rest a) s₁)
      (fun f d s' => ∀ r, Run.Finishes (arrive g v ticks f · d) s' r →
        Run.Finishes (rest a) s₁ r) True (k a s₁)) :
    Outcome frames (Run.Finishes src s)
      (fun f d s' => ∀ r, Run.Finishes (arrive g v ticks f · d) s' r → Run.Finishes src s r) True
      ((m >>= k) s) := by
  cases hm : m s with
  | error e s₁ =>
    rw [EStateM.bind_error hm]
    cases e with
    | error e => exact ⟨trivial, 0, (congrFun (hsrc 0) s).trans (EStateM.bind_error hm)⟩
    | outOfFuel => trivial
  | ok a s₁ =>
    rw [EStateM.bind_ok hm]
    refine (h a s₁).before ?_
    rintro r ⟨hr, j, hj⟩
    exact ⟨hr, j, ((congrFun (hsrc j) s).trans (EStateM.bind_ok hm)).trans hj⟩

/-- A shape ends with the result of a run that first does the same, if what follows does. -/
lemma Outcome.complete_bind {α : Type} {frames : List Frame} {m : Run ε σ α}
    {k : α → Run ε σ (Control × Nat)} {rest : α → Run ε σ (Option UInt64)} {s : σ}
    {cont : Frame → Nat → σ → Prop} {r : EStateM.Result (Halt ε) σ (Option UInt64)}
    (hsrc : (m >>= rest) s = r) (hr : Run.Stopped r)
    (h : ∀ a s₁, rest a s₁ = r → Outcome frames (r = ·) cont False (k a s₁)) :
    Outcome frames (r = ·) cont False ((m >>= k) s) := by
  cases hm : m s with
  | error e s₁ =>
    rw [EStateM.bind_error hm] at hsrc ⊢
    subst hsrc
    cases e with
    | error e => rfl
    | outOfFuel => exact hr
  | ok a s₁ =>
    rw [EStateM.bind_ok hm] at hsrc ⊢
    exact h a s₁ hsrc

/-- A loop does what the run does from its head, when its inside does. -/
lemma Simulates.loop {frames : List Frame} {n l : Nat} {inner : Shape B C}
    (hl : ∀ f ∈ frames, f.label ≠ l)
    (h : Simulates g v ticks (⟨n, .loop, l⟩ :: frames) inner (g.follow v ticks · n)) :
    Simulates g v ticks frames (.loop l inner) (g.follow v ticks · n) := by
  constructor
  · intro fuel d s
    -- the inside keeps the fuel of the loop, so the rounds are counted apart
    suffices hj : ∀ j d s, Outcome frames (Run.Finishes (g.follow v ticks · n d) s)
        (fun f d' s' => ∀ r, Run.Finishes (arrive g v ticks f · d') s' r →
          Run.Finishes (g.follow v ticks · n d) s r) True
        (Shape.iterate v.backEdge l (fun d => inner.run v fuel d) j d s) from hj fuel d s
    intro j
    induction j with
    | zero => intro d s; exact trivial
    | succ j ih =>
      intro d s
      refine (h.sound fuel d s).bind hl (fun d₁ s₁ hcont => ?_) fun c d _ hc => if_neg hc
      simp only [if_true]
      have hback : ∀ fuel, arrive g v ticks ⟨n, .loop, l⟩ fuel d₁ = v.backEdge >>= fun _ =>
          g.follow v ticks fuel n d₁ := fun _ => rfl
      exact (Outcome.sound_bind hback fun _ s₂ => ih d₁ s₂).before hcont
  · intro m fuel d s r hm hsrc hr
    suffices hj : ∀ j d s, m < j → g.follow v ticks m n d s = r →
        Outcome frames (r = ·) (fun f d' s' => ∃ m' < m, arrive g v ticks f m' d' s' = r) False
          (Shape.iterate v.backEdge l (fun d => inner.run v fuel d) j d s) from hj fuel d s hm hsrc
    clear hsrc
    induction m using Nat.strongRecOn with
    | ind m ih =>
      intro j d s hmj hsrc
      obtain ⟨j, rfl⟩ : ∃ i, j = i + 1 := ⟨j - 1, by omega⟩
      refine (h.complete m fuel d s r hm hsrc hr).bind hl (fun d₁ s₁ hcont => ?_)
        fun c d _ hc => if_neg hc
      obtain ⟨m', hm', hcont⟩ := hcont
      simp only [if_true]
      refine Outcome.complete_bind hcont hr fun _ s₂ hrest => ?_
      exact (ih m' hm' (by omega) j d₁ s₂ (by omega) hrest).within hm'.le

/-- What follows a block is run unless control returns or leaves by another label. -/
lemma run_block_follow (fuel l d : Nat) (inner follow : Shape B C) :
    Shape.run v fuel (.ofList [.block l inner, follow]) d = (do
      let left ← inner.run v fuel d
      if left.1 = .jump l ∨ left.1 = .next then follow.run v fuel left.2 else return left) := by
  rw [Shape.run_ofList]
  simp only [Shape.runList, Shape.run, bind_assoc, pure_bind]
  refine congrArg _ (funext fun left => ?_)
  obtain ⟨c, d₁⟩ := left
  cases c with
  | next => exact Shape.runList_singleton ..
  | ret x => simp
  | jump k =>
    by_cases hk : k = l
    · simp only [hk, if_true, true_or]
      exact Shape.runList_singleton ..
    · simp [hk]

/-- A block before the shape that follows it does what the run does from a block, when its inside
does and what follows does what the run does from where the block's label leads. -/
lemma Simulates.block {frames : List Frame} {n y l : Nat} {inner follow : Shape B C}
    (hl : ∀ f ∈ frames, f.label ≠ l)
    (hi : Simulates g v ticks (⟨y, .block, l⟩ :: frames) inner (g.follow v ticks · n))
    (hf : Simulates g v ticks frames follow (g.follow v ticks · y)) :
    Simulates g v ticks frames (.ofList [.block l inner, follow]) (g.follow v ticks · n) := by
  constructor
  · intro fuel d s
    rw [run_block_follow]
    refine (hi.sound fuel d s).bind hl (fun d₁ s₁ hcont => ?_)
      fun c d hn hc => if_neg (not_or.2 ⟨hc, hn⟩)
    simp only [true_or, if_true]
    exact (hf.sound fuel d₁ s₁).before hcont
  · intro m fuel d s r hm hsrc hr
    rw [run_block_follow]
    refine (hi.complete m fuel d s r hm hsrc hr).bind hl (fun d₁ s₁ hcont => ?_)
      fun c d hn hc => if_neg (not_or.2 ⟨hc, hn⟩)
    obtain ⟨m', hm', hcont⟩ := hcont
    simp only [true_or, if_true]
    exact (hf.complete m' fuel d₁ s₁ r (by omega) hcont hr).within hm'.le

/-- A body before another shape is run first. -/
lemma run_body_items (n : Nat) (next : Shape B C) (fuel d : Nat) :
    Shape.run v fuel (.ofList ((g.body? n).toList.map .body ++ [next])) d = (do
      match ← g.runBody v n with
      | some x => return (.ret x, d)
      | none => next.run v fuel d) := by
  rw [Shape.run_ofList]
  unfold Graph.runBody Graph.body?
  rcases g.blocks[n]? with _ | ⟨_ | b, exits, absorbed⟩
  · exact Shape.runList_singleton ..
  · exact Shape.runList_singleton ..
  · simp only [Option.bind_some, Option.toList_some, List.map_cons, List.map_nil,
      Shape.runList_append, Shape.runList_singleton, Shape.run, bind_assoc]
    refine congrArg _ (funext fun r => ?_)
    cases r <;> rfl

/-- A body before the shape for the exits does what the run does from the block. -/
lemma Simulates.body {frames : List Frame} {n : Nat} {next : Shape B C}
    (h : Simulates g v ticks frames next (g.leave v ticks n (g.exits n))) :
    Simulates g v ticks frames (.ofList ((g.body? n).toList.map .body ++ [next]))
      (g.follow v ticks · n) := by
  have hrun := run_body_items (g := g) (v := v) n next
  constructor
  · intro fuel d s
    rw [hrun]
    refine Outcome.sound_bind (fun fuel => g.follow_eq v ticks n fuel d) fun a s₁ => ?_
    cases a with
    | some x => exact ⟨trivial, 0, rfl⟩
    | none => exact h.sound fuel d s₁
  · intro m fuel d s r hm hsrc hr
    rw [hrun]
    rw [Graph.follow_eq] at hsrc
    refine Outcome.complete_bind hsrc hr fun a s₁ hrest => ?_
    cases a with
    | some x => exact hrest.symm
    | none => exact h.complete m fuel d s₁ r hm hrest hr

/-- The last exit is taken without a test. -/
lemma Simulates.exit_last {frames : List Frame} {n : Nat} {e : Exit C} {rest : List (Exit C)}
    {next : Shape B C} (he : e.test = none)
    (h : Simulates g v ticks frames next (g.cross v ticks n e)) :
    Simulates g v ticks frames next (g.leave v ticks n (e :: rest)) := by
  have : g.leave v ticks n (e :: rest) = g.cross v ticks n e := by
    funext fuel d
    simp only [Graph.leave, takeExit, he, pure_bind]
  rw [this]
  exact h

/-- A conditional does what leaving by the first of some exits does, when its arms do what taking
that exit and leaving by the others do. -/
lemma Simulates.exit_test {frames : List Frame} {n : Nat} {e : Exit C} {rest : List (Exit C)}
    {t : Test C} {next otherwise : Shape B C} (he : e.test = some t)
    (hn : Simulates g v ticks frames next (g.cross v ticks n e))
    (ho : Simulates g v ticks frames otherwise (g.leave v ticks n rest)) :
    Simulates g v ticks frames (.cond t next otherwise) (g.leave v ticks n (e :: rest)) := by
  cases t with
  | dispatchIs id =>
    have hleave : ∀ fuel d, g.leave v ticks n (e :: rest) fuel d =
        if d = id then g.cross v ticks n e fuel d else g.leave v ticks n rest fuel d := by
      intro fuel d
      simp only [Graph.leave, takeExit, he]
      split <;> simp only [pure_bind]
    constructor
    · intro fuel d s
      simp only [Shape.run, hleave]
      split
      · exact hn.sound fuel d s
      · exact ho.sound fuel d s
    · intro m fuel d s r hm hsrc hr
      rw [hleave] at hsrc
      simp only [Shape.run]
      by_cases hd : d = id
      · rw [if_pos hd] at hsrc ⊢
        exact hn.complete m fuel d s r hm hsrc hr
      · rw [if_neg hd] at hsrc ⊢
        exact ho.complete m fuel d s r hm hsrc hr
  | cond c =>
    have hleave : ∀ fuel d, g.leave v ticks n (e :: rest) fuel d = (do
        if ← v.test c then g.cross v ticks n e fuel d else g.leave v ticks n rest fuel d) := by
      intro fuel d
      simp only [Graph.leave, takeExit, he, bind_assoc]
      congr 1
      funext b
      split <;> simp only [pure_bind]
    constructor
    · intro fuel d s
      simp only [Shape.run]
      refine Outcome.sound_bind (fun fuel => hleave fuel d) fun b s₁ => ?_
      cases b with
      | true => exact hn.sound fuel d s₁
      | false => exact ho.sound fuel d s₁
    · intro m fuel d s r hm hsrc hr
      rw [hleave] at hsrc
      simp only [Shape.run]
      refine Outcome.complete_bind hsrc hr fun b s₁ hrest => ?_
      cases b with
      | true => exact hn.complete m fuel d s₁ r hm hrest hr
      | false => exact ho.complete m fuel d s₁ r hm hrest hr

/-- Setting the dispatch variable on the way does what taking an exit that sets it does. -/
lemma Simulates.setDispatch {frames : List Frame} {n id : Nat} {e : Exit C} {next : Shape B C}
    (he : e.dispatch = some id)
    (h : Simulates g v ticks frames next (g.cross v ticks n { e with dispatch := none })) :
    Simulates g v ticks frames (.ofList [.setDispatch id, next]) (g.cross v ticks n e) := by
  have hrun : ∀ fuel d, Shape.run v fuel (.ofList [.setDispatch id, next]) d =
      next.run v fuel id := by
    intro fuel d
    rw [Shape.run_ofList]
    simp only [Shape.runList, Shape.run, pure_bind]
    exact Shape.runList_singleton ..
  have hcross : ∀ fuel d, g.cross v ticks n e fuel d =
      g.cross v ticks n { e with dispatch := none } fuel id := by
    intro fuel d
    cases fuel <;> simp [Graph.cross, he]
  constructor
  · intro fuel d s
    simp only [hrun, hcross]
    exact h.sound fuel id s
  · intro m fuel d s r hm hsrc hr
    rw [hrun]
    rw [hcross] at hsrc
    exact h.complete m fuel id s r hm hsrc hr

/-- A jump to the label of a construct does what an exit does that leads to the block of the
construct, charged once if it is a loop. -/
lemma Simulates.jump {frames : List Frame} {n : Nat} {e : Exit C} {f : Frame} (hf : f ∈ frames)
    (he : e.dispatch = none) (htarget : f.target = e.target)
    (hticks : ticks n e.target = if f.kind = .loop then 1 else 0) :
    Simulates g v ticks frames (.br f.label) (g.cross v ticks n e) := by
  have hcross : ∀ fuel d, g.cross v ticks n e (fuel + 1) d = arrive g v ticks f fuel d := by
    intro fuel d
    simp only [Graph.cross, arrive, hticks, he, htarget]
    cases f.kind <;> simp [charge]
  constructor
  · intro fuel d s
    refine ⟨f, hf, rfl, ?_⟩
    rintro r ⟨hr, k, hk⟩
    exact ⟨hr, k + 1, (congrFun (hcross k d) s).trans hk⟩
  · intro m fuel d s r hm hsrc hr
    cases m with
    | zero => subst hsrc; exact hr.elim
    | succ m => exact ⟨f, hf, rfl, m, by omega, (congrFun (hcross m d) s).symm.trans hsrc⟩

/-- A shape that does what the run does from a block does what an exit to the block does. -/
lemma Simulates.inline {frames : List Frame} {n : Nat} {e : Exit C} {x : Shape B C}
    (he : e.dispatch = none) (hticks : ticks n e.target = 0)
    (h : Simulates g v ticks frames x (g.follow v ticks · e.target)) :
    Simulates g v ticks frames x (g.cross v ticks n e) := by
  have hcross : ∀ fuel d, g.cross v ticks n e (fuel + 1) d = g.follow v ticks fuel e.target d := by
    intro fuel d
    simp [Graph.cross, hticks, he, charge]
  constructor
  · intro fuel d s
    have hfin : ∀ r, Run.Finishes (g.follow v ticks · e.target d) s r →
        Run.Finishes (g.cross v ticks n e · d) s r := by
      rintro r ⟨hr, k, hk⟩
      exact ⟨hr, k + 1, (congrFun (hcross k d) s).trans hk⟩
    exact (h.sound fuel d s).before hfin
  · intro m fuel d s r hm hsrc hr
    cases m with
    | zero => subst hsrc; exact hr.elim
    | succ m =>
      rw [hcross] at hsrc
      exact (h.complete m fuel d s r (by omega) hsrc hr).within (Nat.le_succ m)

end

end Dynarec.Flow
