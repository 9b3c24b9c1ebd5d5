import Dynarec.Flow.Graph
import Dynarec.Proofs.Run

/-!
# Direct interpretation of block graphs

The meaning of a graph without its structured form: the body of a block is run, the run is over if
the body returns, and else the first exit whose condition holds is taken. `Graph.interpret` is this
for graphs without dispatchers. `Graph.follow` also keeps a dispatch variable and charges jumps
back, `ticks n t` of them on the way from block `n` to block `t`.
-/

namespace Dynarec.Flow

variable {B C ε σ : Type}

/-- Where control goes by the first exit whose condition holds. -/
def firstTarget (v : Shape.Visitor B C ε σ) : List (Exit C) → Run ε σ (Option Nat)
  | [] => return none
  | e :: rest =>
    match e.test with
    | some (.cond c) => do if ← v.test c then return some e.target else firstTarget v rest
    | _ => return some e.target

/-- The first exit whose test holds. -/
def takeExit (v : Shape.Visitor B C ε σ) (dispatch : Nat) :
    List (Exit C) → Run ε σ (Option (Exit C))
  | [] => return none
  | e :: rest =>
    match e.test with
    | none => return some e
    | some (.cond c) => do if ← v.test c then return some e else takeExit v dispatch rest
    | some (.dispatchIs id) => if dispatch = id then return some e else takeExit v dispatch rest

/-- Charge so many jumps back. -/
def charge (tick : Run ε σ Unit) : Nat → Run ε σ Unit
  | 0 => return ()
  | n + 1 => do
    tick
    charge tick n

namespace Graph

/-- Run the body of a block, if it has one. -/
def runBody (g : Graph B C) (v : Shape.Visitor B C ε σ) (n : Nat) : Run ε σ (Option UInt64) :=
  match g.blocks[n]? with
  | some ⟨some b, _, _⟩ => v.body b
  | _ => return none

/-- Run a graph from a block. The fuel bounds the number of exits taken. -/
def interpret (g : Graph B C) (v : Shape.Visitor B C ε σ) (fuel n : Nat) :
    Run ε σ (Option UInt64) := do
  match ← g.runBody v n with
  | some value => return some value
  | none =>
    match ← firstTarget v (g.exits n) with
    | none => return none
    | some target =>
      match fuel with
      | 0 => throw .outOfFuel
      | fuel + 1 => g.interpret v fuel target

/-- Run a graph with dispatchers from a block. The fuel bounds the number of exits taken. -/
def follow (g : Graph B C) (v : Shape.Visitor B C ε σ) (ticks : Nat → Nat → Nat)
    (fuel n dispatch : Nat) : Run ε σ (Option UInt64) := do
  match ← g.runBody v n with
  | some value => return some value
  | none =>
    match ← takeExit v dispatch (g.exits n) with
    | none => return none
    | some e =>
      match fuel with
      | 0 => throw .outOfFuel
      | fuel + 1 => do
        charge v.backEdge (ticks n e.target)
        g.follow v ticks fuel e.target (e.dispatch.getD dispatch)

section

variable (g : Graph B C) (v : Shape.Visitor B C ε σ) (ticks : Nat → Nat → Nat) (n : Nat)

/-- Take an exit of block `n`, and go on from there. -/
def cross (e : Exit C) : (fuel dispatch : Nat) → Run ε σ (Option UInt64)
  | 0, _ => throw .outOfFuel
  | fuel + 1, dispatch => do
    charge v.backEdge (ticks n e.target)
    g.follow v ticks fuel e.target (e.dispatch.getD dispatch)

/-- Leave block `n` by the first of some exits whose test holds, and go on from there. -/
def leave (exits : List (Exit C)) (fuel dispatch : Nat) : Run ε σ (Option UInt64) := do
  match ← takeExit v dispatch exits with
  | none => return none
  | some e => g.cross v ticks n e fuel dispatch

/-- A block is run by running its body and leaving it. -/
lemma follow_eq (fuel dispatch : Nat) :
    g.follow v ticks fuel n dispatch = (do
      match ← g.runBody v n with
      | some value => return some value
      | none => g.leave v ticks n (g.exits n) fuel dispatch) := by
  unfold follow leave
  congr 1
  funext r
  cases r with
  | some value => rfl
  | none =>
    simp only
    congr 1
    funext e
    cases e <;> cases fuel <;> rfl

/-- Run the body of a block and choose an exit; gives the value that the body returned, or the exit
if one is taken. -/
def pick (dispatch : Nat) : Run ε σ (UInt64 ⊕ Option (Exit C)) := do
  match ← g.runBody v n with
  | some value => return .inl value
  | none => return .inr (← takeExit v dispatch (g.exits n))

end

/-- A run from a block ends with a result. -/
inductive Ends (g : Graph B C) (v : Shape.Visitor B C ε σ) (ticks : Nat → Nat → Nat) :
    Nat → Nat → σ → EStateM.Result (Halt ε) σ (Option UInt64) → Prop where
  | error {n d : Nat} {s s' : σ} {e : ε} :
    g.pick v n d s = .error (.error e) s' → Ends g v ticks n d s (.error (.error e) s')
  | returned {n d : Nat} {s s' : σ} {x : UInt64} :
    g.pick v n d s = .ok (.inl x) s' → Ends g v ticks n d s (.ok (some x) s')
  | fellOff {n d : Nat} {s s' : σ} :
    g.pick v n d s = .ok (.inr none) s' → Ends g v ticks n d s (.ok none s')
  | charged {n d : Nat} {s s₁ s' : σ} {x : Exit C} {e : ε} :
    g.pick v n d s = .ok (.inr (some x)) s₁ →
    charge v.backEdge (ticks n x.target) s₁ = .error (.error e) s' →
    Ends g v ticks n d s (.error (.error e) s')
  | step {n d : Nat} {s s₁ s₂ : σ} {x : Exit C}
      {r : EStateM.Result (Halt ε) σ (Option UInt64)} :
    g.pick v n d s = .ok (.inr (some x)) s₁ →
    charge v.backEdge (ticks n x.target) s₁ = .ok () s₂ →
    Ends g v ticks x.target (x.dispatch.getD d) s₂ r →
    Ends g v ticks n d s r

section

variable {g : Graph B C} {v : Shape.Visitor B C ε σ} {ticks : Nat → Nat → Nat}

/-! ### One block of a run -/

/-- A run is charged for an exit, which may fail, and then does what `go` says. -/
def Crosses (v : Shape.Visitor B C ε σ) (k : Nat) (go : σ → Prop) (s : σ)
    (r : EStateM.Result (Halt ε) σ (Option UInt64)) : Prop :=
  (∃ e s', charge v.backEdge k s = .error (.error e) s' ∧ r = .error (.error e) s') ∨
    ∃ s', charge v.backEdge k s = .ok () s' ∧ go s'

/-- A run ends with a result when a block has chosen an exit, where `cost` is what is charged for an
exit and `go` what the run does then. -/
def Continues (v : Shape.Visitor B C ε σ) (cost : Exit C → Nat) (go : Exit C → σ → Prop)
    (p : EStateM.Result (Halt ε) σ (UInt64 ⊕ Option (Exit C)))
    (r : EStateM.Result (Halt ε) σ (Option UInt64)) : Prop :=
  match p with
  | .error (.error e) s' => r = .error (.error e) s'
  | .error .outOfFuel _ => False
  | .ok (.inl x) s' => r = .ok (some x) s'
  | .ok (.inr none) s' => r = .ok none s'
  | .ok (.inr (some x)) s' => Crosses v (cost x) (go x) s' r

section

variable {cost cost' : Exit C → Nat} {go go' : Exit C → σ → Prop} {n d k : Nat} {s : σ}
  {p : EStateM.Result (Halt ε) σ (UInt64 ⊕ Option (Exit C))}
  {r : EStateM.Result (Halt ε) σ (Option UInt64)}

lemma Crosses.mono {q q' : σ → Prop} (h : Crosses v k q s r) (hq : ∀ s', q s' → q' s') :
    Crosses v k q' s r :=
  h.imp_right fun ⟨s', hc, hs'⟩ => ⟨s', hc, hq s' hs'⟩

/-- Without a charge a run goes on as it is. -/
lemma crosses_zero {q : σ → Prop} : Crosses v 0 q s r ↔ q s := by
  constructor
  · rintro (⟨e, s', hc, _⟩ | ⟨s', hc, hs⟩)
    · cases hc
    · cases hc
      exact hs
  · exact fun hs => .inr ⟨s, rfl, hs⟩

/-- Runs that choose the same exit differ only in what they do for it. -/
lemma Continues.imp (h : Continues v cost go p r)
    (hx : ∀ x s', p = .ok (.inr (some x)) s' →
      Crosses v (cost x) (go x) s' r → Crosses v (cost' x) (go' x) s' r) :
    Continues v cost' go' p r := by
  match p, h with
  | .error (.error e) s', h => exact h
  | .ok (.inl x) s', h => exact h
  | .ok (.inr none) s', h => exact h
  | .ok (.inr (some x)) s', h => exact hx x s' rfl h

/-- Runs that choose the same exit and are charged the same for it. -/
lemma Continues.mono (h : Continues v cost go p r)
    (hcost : ∀ x s', p = .ok (.inr (some x)) s' → cost' x = cost x)
    (hgo : ∀ x s', p = .ok (.inr (some x)) s' → ∀ s₁, go x s₁ → go' x s₁) :
    Continues v cost' go' p r := by
  refine h.imp fun x s' hp hx => ?_
  rw [hcost x s' hp]
  exact hx.mono (hgo x s' hp)

/-- An exit that is led elsewhere is charged for and gone on with as the other one. -/
lemma continues_map {m : Run ε σ (UInt64 ⊕ Option (Exit C))} (f : Exit C → Exit C) :
    Continues v cost go ((Sum.map id (Option.map f) <$> m) s) r ↔
      Continues v (fun x => cost (f x)) (fun x => go (f x)) (m s) r := by
  change Continues v cost go (EStateM.map (Sum.map id (Option.map f)) m s) r ↔ _
  unfold EStateM.map
  match m s with
  | .error (.error _) _ | .error .outOfFuel _ => rfl
  | .ok (.inl _) _ | .ok (.inr none) _ | .ok (.inr (some _)) _ => rfl

/-- A run ends as its first block says. -/
lemma ends_iff_continues : g.Ends v ticks n d s r ↔ Continues v (fun x => ticks n x.target)
    (fun x s' => g.Ends v ticks x.target (x.dispatch.getD d) s' r) (g.pick v n d s) r := by
  constructor
  · intro h
    cases h with
    | error hp | returned hp | fellOff hp => rw [hp]; rfl
    | charged hp hc => rw [hp]; exact .inl ⟨_, _, hc, rfl⟩
    | step hp hc h => rw [hp]; exact .inr ⟨_, hc, h⟩
  · intro h
    cases hp : g.pick v n d s with
    | error e s' =>
      rw [hp] at h
      cases e with
      | error e => subst h; exact .error hp
      | outOfFuel => exact h.elim
    | ok a s' =>
      rw [hp] at h
      match a, h with
      | .inl x, h => subst h; exact .returned hp
      | .inr none, h => subst h; exact .fellOff hp
      | .inr (some x), .inl ⟨e, s₁, hc, hr⟩ => subst hr; exact .charged hp hc
      | .inr (some x), .inr ⟨s₁, hc, h⟩ => exact .step hp hc h

/-- What holds of a block, if it holds of the blocks that a run goes on with, holds along every run
that ends. -/
@[elab_as_elim]
lemma Ends.induct {motive : Nat → Nat → σ → Prop} (he : g.Ends v ticks n d s r)
    (h : ∀ n d s, Continues v (fun x => ticks n x.target)
      (fun x s' => g.Ends v ticks x.target (x.dispatch.getD d) s' r ∧
        motive x.target (x.dispatch.getD d) s') (g.pick v n d s) r → motive n d s) :
    motive n d s := by
  induction he with
  | error hp | returned hp | fellOff hp => exact h _ _ _ (by rw [hp]; rfl)
  | charged hp hc => exact h _ _ _ (by rw [hp]; exact .inl ⟨_, _, hc, rfl⟩)
  | step hp hc he ih => exact h _ _ _ (by rw [hp]; exact .inr ⟨_, hc, he, ih h⟩)

end

/-- A block is run by choosing an exit and taking it. -/
lemma follow_eq_pick (fuel n d : Nat) : g.follow v ticks fuel n d = (do
    match ← g.pick v n d with
    | .inl value => return some value
    | .inr none => return none
    | .inr (some e) => g.cross v ticks n e fuel d) := by
  rw [follow_eq]
  simp only [pick, leave, bind_assoc]
  congr 1
  funext r
  cases r with
  | some value => rfl
  | none =>
    simp only [bind_assoc]
    congr 1
    funext e
    cases e <;> rfl

/-- A run that ends does so within some fuel. -/
lemma Ends.finishes {n d : Nat} {s : σ} {r : EStateM.Result (Halt ε) σ (Option UInt64)}
    (h : g.Ends v ticks n d s r) : Run.Finishes (g.follow v ticks · n d) s r := by
  simp only [Run.Finishes, follow_eq_pick]
  induction h with
  | error hp => exact ⟨trivial, 0, EStateM.bind_error hp⟩
  | returned hp => exact ⟨trivial, 0, EStateM.bind_ok hp⟩
  | fellOff hp => exact ⟨trivial, 0, EStateM.bind_ok hp⟩
  | charged hp hc => exact ⟨trivial, 1, (EStateM.bind_ok hp).trans (EStateM.bind_error hc)⟩
  | step hp hc _ ih =>
    obtain ⟨hr, k, hk⟩ := ih
    refine ⟨hr, k + 1, (EStateM.bind_ok hp).trans ((EStateM.bind_ok hc).trans ?_)⟩
    rw [follow_eq_pick]
    exact hk

/-- A run that is not cut off ends, if what it does for an exit ends. -/
lemma ends_of_cross {fuel n d : Nat} {s : σ}
    (hcross : ∀ x s', Run.Stopped (g.cross v ticks n x fuel d s') →
      Crosses v (ticks n x.target) (fun s₁ => g.Ends v ticks x.target (x.dispatch.getD d) s₁
        (g.cross v ticks n x fuel d s')) s' (g.cross v ticks n x fuel d s'))
    (hr : Run.Stopped (g.follow v ticks fuel n d s)) :
    g.Ends v ticks n d s (g.follow v ticks fuel n d s) := by
  rw [follow_eq_pick] at hr ⊢
  rw [ends_iff_continues]
  cases hp : g.pick v n d s with
  | error e s' =>
    rw [EStateM.bind_error hp] at hr ⊢
    cases e with
    | error e => rfl
    | outOfFuel => exact hr.elim
  | ok a s' =>
    rw [EStateM.bind_ok hp] at hr ⊢
    match a with
    | .inl x | .inr none => rfl
    | .inr (some x) => exact hcross x s' hr

/-- A run that is not cut off ends. -/
lemma ends_of_follow {fuel n d : Nat} {s : σ} (hr : Run.Stopped (g.follow v ticks fuel n d s)) :
    g.Ends v ticks n d s (g.follow v ticks fuel n d s) := by
  induction fuel generalizing n d s with
  | zero => exact ends_of_cross (fun _ _ h => h.elim) hr
  | succ fuel ih =>
    refine ends_of_cross (fun x s' h => ?_) hr
    simp only [cross] at h ⊢
    cases hc : charge v.backEdge (ticks n x.target) s' with
    | error e s₁ =>
      rw [EStateM.bind_error hc] at h ⊢
      cases e with
      | error e => exact .inl ⟨e, s₁, hc, rfl⟩
      | outOfFuel => exact h.elim
    | ok u s₁ =>
      rw [EStateM.bind_ok hc] at h ⊢
      exact .inr ⟨s₁, hc, ih h⟩

/-- A run ends with a result exactly if it gives the result for some fuel. -/
theorem ends_iff_finishes {n d : Nat} {s : σ} {r : EStateM.Result (Halt ε) σ (Option UInt64)} :
    g.Ends v ticks n d s r ↔ Run.Finishes (g.follow v ticks · n d) s r := by
  refine ⟨Ends.finishes, ?_⟩
  rintro ⟨hr, k, rfl⟩
  exact ends_of_follow hr

end

end Graph

end Dynarec.Flow
