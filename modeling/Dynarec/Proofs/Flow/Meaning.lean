import Dynarec.Proofs.Flow.Coalesce

/-!
# Structured forms keep the meaning

A walk of the structured form of a graph has the results of direct interpretation, for every visitor
that does nothing on jumps back. A visitor may record its calls and stop after a number of them, so
the calls made are the same as well, and so are the first calls of runs that never end.
-/

namespace Dynarec

variable {A B C ε σ : Type}

namespace Shape.Visitor

/-- Nothing is done on a jump back. -/
def Quiet (v : Visitor B C ε σ) : Prop := v.backEdge = pure ()

/-- Keep the calls beside the state of a run. -/
def keep {α : Type} (x : Run ε σ α) (calls : List (B ⊕ C)) (s : σ) :
    EStateM.Result (Halt (Option ε)) (σ × List (B ⊕ C)) α :=
  match x s with
  | .ok a s => .ok a (s, calls)
  | .error (.error e) s => .error (.error (some e)) (s, calls)
  | .error .outOfFuel s => .error .outOfFuel (s, calls)

/-- Make a call and record it, or stop when as many calls as allowed have been made. -/
def record {α : Type} (limit : Nat) (call : B ⊕ C) (x : Run ε σ α) :
    Run (Option ε) (σ × List (B ⊕ C)) α := fun (s, calls) =>
  if calls.length < limit then keep x (calls ++ [call]) s
  else .error (.error none) (s, calls)

/-- A visitor that records the calls it gets and stops after the first ones. -/
def recording (v : Visitor B C ε σ) (limit : Nat) :
    Visitor B C (Option ε) (σ × List (B ⊕ C)) where
  body b := record limit (.inl b) (v.body b)
  test c := record limit (.inr c) (v.test c)
  backEdge := fun (s, calls) => keep v.backEdge calls s

/-- Run bodies one after the other until one returns. -/
def runBodies (v : Visitor A C ε σ) : List A → Run ε σ (Option UInt64)
  | [] => return none
  | a :: rest => do
    match ← v.body a with
    | some value => return some value
    | none => runBodies v rest

/-- A visitor of bodies that consist of bodies. -/
def onAll (v : Visitor A C ε σ) (parts : B → List A) : Visitor B C ε σ where
  body b := v.runBodies (parts b)
  test := v.test
  backEdge := v.backEdge

lemma Quiet.recording {v : Visitor B C ε σ} (h : v.Quiet) (limit : Nat) :
    (v.recording limit).Quiet := by
  funext ⟨s, calls⟩
  change keep v.backEdge calls s = _
  rw [keep, h]
  rfl

/-- Bodies in two parts are run one part after the other. -/
lemma runBodies_append (v : Visitor A C ε σ) (xs ys : List A) :
    v.runBodies (xs ++ ys) = (do
      match ← v.runBodies xs with
      | some value => return some value
      | none => v.runBodies ys) := by
  induction xs with
  | nil => simp [runBodies]
  | cons x xs ih =>
    simp only [List.cons_append, runBodies, ih, bind_assoc]
    congr 1
    funext r
    cases r with
    | some value => simp
    | none => rfl

end Shape.Visitor

namespace Flow

open Shape (Visitor)

namespace Graph

variable {g : Graph B C} {v : Visitor B C ε σ}

/-- A graph is made by adding blocks and exits, choosing the entry, and merging chains. -/
inductive Built : Graph B C → Prop where
  | empty : Built .empty
  | addBlock {g : Graph B C} (body : B) : Built g → Built (g.addBlock body).2
  | addExit {g : Graph B C} (source : Nat) (cond : Option C) (target : Nat) :
    Built g → Built (g.addExit source cond target)
  | setEntry {g : Graph B C} (entry : Nat) : Built g → Built (g.setEntry entry)
  | coalesce {g : Graph B C} (join : B → B → B) : Built g → Built (g.coalesce join)

/-- Merging chains keeps what absorbing one block keeps. -/
lemma coalesce_induction {P : Graph B C → Prop} {join : B → B → B}
    (hstep : ∀ g a b, b ≠ a → P g → P (g.absorb join a b)) (h : P g) : P (g.coalesce join) := by
  have hchain : ∀ counts fuel a (g : Graph B C), P g →
      P (Graph.absorbChain join counts fuel g a) := by
    intro counts fuel a
    induction fuel with
    | zero => exact fun _ h => h
    | succ fuel ih =>
      intro g h
      rw [Graph.absorbChain]
      split
      · next b hb =>
        refine ih _ (hstep g a b ?_ h)
        unfold absorbable? at hb
        split at hb
        · simp only at hb
          split at hb
          · cases hb
          · next hc =>
            cases hb
            simp only [Bool.or_eq_true, not_or, beq_iff_eq] at hc
            exact hc.1.1.1.2
        · cases hb
      · exact h
  have hfold : ∀ (as : List Nat) (g' : Graph B C), P g' →
      P (as.foldl (fun g' a =>
        if g.reachable.getD a false && !(g'.blocks[a]?.map (·.absorbed)).getD true then
          Graph.absorbChain join g.incoming g'.blocks.size g' a
        else g') g') := by
    intro as
    induction as with
    | nil => exact fun _ h => h
    | cons a as ih =>
      intro g' h
      rw [List.foldl_cons]
      refine ih _ ?_
      split
      · exact hchain _ _ _ _ h
      · exact h
  exact hfold (List.range g.blocks.size) g h

/-- Built graphs are graphs of programs. -/
lemma Built.plain (h : g.Built) : g.Plain := by
  induction h with
  | empty => intro n e he; simp [exits, Graph.empty] at he
  | @addBlock g body _ ih =>
    intro n e he
    simp only [exits, Graph.addBlock, Array.getElem?_push] at he
    split at he
    · next blk hblk =>
      split at hblk
      · cases hblk
        cases he
      · exact ih n e (by rw [exits, hblk]; exact he)
    · cases he
  | @addExit g source cond target _ ih =>
    intro n e he
    simp only [exits, Graph.addExit, Array.getElem?_modify] at he
    split at he
    · next blk hblk =>
      split at hblk
      · obtain ⟨blk', hblk', rfl⟩ := Option.map_eq_some_iff.1 hblk
        rcases List.mem_append.1 he with he | he
        · exact ih n e (by rw [exits, hblk']; exact he)
        · obtain rfl := List.mem_singleton.1 he
          refine ⟨rfl, fun id => ?_⟩
          cases cond <;> simp
      · exact ih n e (by rw [exits, hblk]; exact he)
    · cases he
  | setEntry entry _ ih => exact ih
  | coalesce join _ ih => exact coalesce_induction (fun _ _ _ hne h => plain_absorb hne h) ih

lemma Built.bodied (h : g.Built) : g.Bodied := by
  induction h with
  | empty => intro n blk hblk; simp [Graph.empty] at hblk
  | @addBlock g body _ ih =>
    intro n blk hblk
    simp only [Graph.addBlock, Array.getElem?_push] at hblk
    split at hblk
    · cases hblk
      simp
    · exact ih n blk hblk
  | @addExit g source cond target _ ih =>
    intro n blk hblk
    simp only [Graph.addExit, Array.getElem?_modify] at hblk
    split at hblk
    · obtain ⟨blk', hblk', rfl⟩ := Option.map_eq_some_iff.1 hblk
      exact ih n blk' hblk'
    · exact ih n blk hblk
  | setEntry entry _ ih => exact ih
  | coalesce join _ ih => exact coalesce_induction (fun _ _ _ hne h => bodied_absorb hne h) ih

/-! ### Direct interpretation -/

/-- For a visitor that does nothing on jumps back it does not matter how many are charged. -/
lemma charge_quiet (h : v.Quiet) (k : Nat) : charge v.backEdge k = pure () := by
  induction k with
  | zero => rfl
  | succ k ih => rw [charge, ih, h]; rfl

lemma ends_quiet (h : v.Quiet) {ticks ticks' : Nat → Nat → Nat} {n d : Nat} {s : σ}
    {r : EStateM.Result (Halt ε) σ (Option UInt64)} (he : g.Ends v ticks n d s r) :
    g.Ends v ticks' n d s r := by
  refine Ends.induct he fun n d s hc => ?_
  rw [ends_iff_continues]
  refine hc.imp fun x s' _ hx => ?_
  simp only [Crosses, charge_quiet h] at hx ⊢
  exact hx.imp_right fun ⟨s₁, hs, hgo⟩ => ⟨s₁, hs, hgo.2⟩

lemma endsAfter_quiet (h : v.Quiet) {ticks : Nat → Nat → Nat} {k n d : Nat} {s : σ}
    {r : EStateM.Result (Halt ε) σ (Option UInt64)} :
    g.EndsAfter v ticks k n d s r ↔ g.Ends v (fun _ _ => 0) n d s r := by
  rw [EndsAfter, charge_quiet h]
  constructor
  · rintro (⟨e, s', hc, _⟩ | ⟨s', hc, he⟩)
    · cases hc
    · cases hc
      exact ends_quiet h he
  · exact fun he => .inr ⟨s, rfl, ends_quiet h he⟩

/-- Without dispatchers an exit is chosen by the conditions alone. -/
lemma firstTarget_eq_takeExit (d : Nat) {exits : List (Exit C)}
    (h : ∀ e ∈ exits, ∀ id, e.test ≠ some (.dispatchIs id)) :
    firstTarget v exits = Option.map (·.target) <$> takeExit v d exits := by
  induction exits with
  | nil => rfl
  | cons e rest ih =>
    have ih := ih fun e' he' => h e' (List.mem_cons_of_mem _ he')
    rcases ht : e.test with _ | ⟨c⟩ | ⟨id⟩
    · simp only [firstTarget, takeExit, ht]
      rfl
    · simp only [firstTarget, takeExit, ht, map_bind, ih]
      congr 1
      funext b
      cases b <;> rfl
    · exact absurd ht (h e List.mem_cons_self id)

/-- Without dispatchers a run goes where the conditions alone lead. -/
lemma interpret_eq_follow (hplain : g.Plain) (fuel n d : Nat) :
    g.interpret v fuel n = g.follow v (fun _ _ => 0) fuel n d := by
  have hfirst : ∀ n, firstTarget v (g.exits n) =
      Option.map (·.target) <$> takeExit v d (g.exits n) := fun n =>
    firstTarget_eq_takeExit d fun e he => (hplain n e he).2
  induction fuel generalizing n with
  | zero =>
    unfold interpret follow
    congr 1
    funext r
    cases r with
    | some value => rfl
    | none =>
      simp only [hfirst, bind_map_left]
      congr 1
      funext o
      cases o <;> rfl
  | succ fuel ih =>
    unfold interpret follow
    congr 1
    funext r
    cases r with
    | some value => rfl
    | none =>
      simp only [hfirst, bind_map_left]
      funext s
      cases ho : takeExit v d (g.exits n) s with
      | error e s₁ => rw [EStateM.bind_error ho, EStateM.bind_error ho]
      | ok o s₁ =>
        rw [EStateM.bind_ok ho, EStateM.bind_ok ho]
        cases o with
        | none => rfl
        | some e =>
          simp only [Option.map_some, charge, (hplain n e (mem_of_takeExit ho)).1,
            Option.getD_none, ih, pure_bind]

lemma ends_iff_interpret (hplain : g.Plain) {n d : Nat} {s : σ}
    {r : EStateM.Result (Halt ε) σ (Option UInt64)} :
    g.Ends v (fun _ _ => 0) n d s r ↔ Run.Finishes (g.interpret v · n) s r := by
  rw [ends_iff_finishes]
  simp only [Run.Finishes, interpret_eq_follow hplain _ n d]

/-! ### Walks -/

/-- A walk of a shape and direct interpretation of a graph have the same results, from every state. -/
def SameResults (x : Shape B C) (g : Graph B C) (v : Visitor B C ε σ) : Prop :=
  ∀ s r, Run.Finishes (x.walk v ·) s r ↔ Run.Finishes (g.interpret v · g.entry) s r

/-- A walk has the results of direct interpretation in which jumps back are charged on some of the
ways between blocks. -/
def SameCharged (x : Shape B C) (g : Graph B C) (v : Visitor B C ε σ) : Prop :=
  ∃ ticks k, ∀ s r, Run.Finishes (x.walk v ·) s r ↔
    Run.Finishes (fun fuel => do
      charge v.backEdge k
      g.follow v ticks fuel g.entry 0) s r

lemma endsAfter_iff_finishes {ticks : Nat → Nat → Nat} {k n d : Nat} {s : σ}
    {r : EStateM.Result (Halt ε) σ (Option UInt64)} : g.EndsAfter v ticks k n d s r ↔
      Run.Finishes (fun fuel => do charge v.backEdge k; g.follow v ticks fuel n d) s r := by
  simp only [EndsAfter, ends_iff_finishes, Run.Finishes]
  cases hc : charge v.backEdge k s with
  | error e s₁ =>
    simp only [EStateM.bind_error hc]
    constructor
    · rintro (⟨e', s', he, rfl⟩ | ⟨s', he, _⟩)
      · cases he
        exact ⟨trivial, 0, rfl⟩
      · cases he
    · rintro ⟨hr, _, rfl⟩
      cases e with
      | error e => exact .inl ⟨e, s₁, rfl, rfl⟩
      | outOfFuel => exact hr.elim
  | ok u s₁ =>
    simp only [EStateM.bind_ok hc]
    constructor
    · rintro (⟨e', s', he, rfl⟩ | ⟨s', he, hf⟩)
      · cases he
      · cases he
        exact hf
    · exact fun hf => .inr ⟨s₁, rfl, hf⟩

/-- A walk that does what runs of the graph do, with a charge for every exit that leads back, has the
results of direct interpretation. -/
lemma sameCharged_of_ends (hplain : g.Plain) {x : Shape B C}
    (h : ∀ s r, Run.Finishes (x.walk v ·) s r ↔ g.Ends v g.charges g.entry 0 s r) :
    SameCharged x g v ∧ (v.Quiet → SameResults x g v) := by
  have hafter : ∀ s r, Run.Finishes (x.walk v ·) s r ↔
      g.EndsAfter v g.charges 0 g.entry 0 s r := fun s r => (h s r).trans endsAfter_zero.symm
  refine ⟨⟨g.charges, 0, fun s r => (hafter s r).trans endsAfter_iff_finishes⟩,
    fun hquiet s r => ?_⟩
  rw [hafter, endsAfter_quiet hquiet, ends_iff_interpret hplain]

/-- The structured form of a graph does what direct interpretation does. -/
lemma same_structurize (hval : g.validate = .ok ()) (hplain : g.Plain) :
    ∃ x, g.structurize = .ok x ∧ ∀ {ε σ : Type} (v : Visitor B C ε σ), g.Returns v →
      SameCharged x g v ∧ (v.Quiet → SameResults x g v) := by
  obtain ⟨x, hx, hends⟩ := structurize_ends hval hplain
  refine ⟨x, hx, fun v hret => ?_⟩
  exact sameCharged_of_ends hplain (hends v hret)

/-- So does the structured form of the graph with its chains merged, for visitors that run joined
bodies one after the other. -/
lemma same_coalesce (hval : g.validate = .ok ()) (hplain : g.Plain) (hbodied : g.Bodied)
    (join : B → B → B) :
    ∃ x, (g.coalesce join).structurize = .ok x ∧ ∀ {ε σ : Type} (v : Visitor B C ε σ),
      Joins v join → g.Returns v → SameCharged x g v ∧ (v.Quiet → SameResults x g v) := by
  obtain ⟨x, hx, hends⟩ := coalesce_ends hval hplain hbodied join
  exact ⟨x, hx, fun v hjoin hret => sameCharged_of_ends hplain (hends v hjoin hret)⟩

/-! ### Recorded calls -/

/-- A body of a recording visitor that ends has ended as the body itself. -/
lemma body_recording {limit : Nat} {b : B} {s s' : σ} {calls calls' : List (B ⊕ C)}
    {r : Option UInt64} (h : (v.recording limit).body b (s, calls) = .ok r (s', calls')) :
    v.body b s = .ok r s' := by
  simp only [Visitor.recording, Visitor.record, Visitor.keep] at h
  split at h
  · cases hb : v.body b s with
    | ok r' s₁ => rw [hb] at h; cases h; rfl
    | error e s₁ => rw [hb] at h; cases e <;> cases h
  · cases h

lemma runBodies_recording {limit : Nat} {bodies : List B} {s s' : σ} {calls calls' : List (B ⊕ C)}
    {r : Option UInt64}
    (h : (v.recording limit).runBodies bodies (s, calls) = .ok r (s', calls')) :
    v.runBodies bodies s = .ok r s' := by
  induction bodies generalizing s calls with
  | nil => cases h; rfl
  | cons b bodies ih =>
    obtain ⟨r₁, ⟨s₁, calls₁⟩, hb, h⟩ := EStateM.of_bind_ok h
    refine (EStateM.bind_ok (body_recording hb)).trans ?_
    cases r₁ with
    | some x => cases h; rfl
    | none => exact ih h

/-- Recording calls does not make a body go on that has returned before. -/
lemma Returns.recording {ε' τ : Type} {w : Visitor B C ε' (σ × τ)} (h : g.Returns v)
    (hbody : ∀ b s t r s' t', w.body b (s, t) = .ok r (s', t') → v.body b s = .ok r s') :
    g.Returns w := by
  rintro n hn hex ⟨s, t⟩ ⟨s', t'⟩ hb
  have hret := h n hn hex
  rcases hblk : g.blocks[n]? with _ | ⟨_ | b, exits, absorbed⟩ <;>
    simp only [runBody, hblk] at hb hret
  · exact hret s s rfl
  · exact hret s s rfl
  · exact hret s s' (hbody b s t none s' t' hb)

/-- A recorded call ends, if the call itself does, and is recorded or stops the run. -/
lemma record_cases {α : Type} (limit : Nat) (call : B ⊕ C) {x : Run ε σ α}
    (hx : ∀ s s', x s ≠ .error .outOfFuel s') (s : σ) (calls : List (B ⊕ C)) :
    (∃ e s', Visitor.record limit call x (s, calls) = .error (.error e) s') ∨
      ∃ a s', Visitor.record limit call x (s, calls) = .ok a (s', calls ++ [call]) ∧
        calls.length < limit := by
  simp only [Visitor.record, Visitor.keep]
  split
  · next hlt =>
    cases hs : x s with
    | ok a s' => exact .inr ⟨a, s', rfl, hlt⟩
    | error e s' =>
      cases e with
      | error e => exact .inl ⟨some e, _, rfl⟩
      | outOfFuel => exact absurd hs (hx s s')
  · exact .inl ⟨none, _, rfl⟩

/-- Recorded tests end, and the calls recorded before stay recorded. -/
lemma firstTarget_recording (htest : ∀ c s s', v.test c s ≠ .error .outOfFuel s') (limit : Nat)
    (exits : List (Exit C)) (s : σ) (calls : List (B ⊕ C)) :
    (∃ e s', firstTarget (v.recording limit) exits (s, calls) = .error (.error e) s') ∨
      ∃ o s' calls', firstTarget (v.recording limit) exits (s, calls) = .ok o (s', calls') ∧
        calls.length ≤ calls'.length ∧ ∀ t, o = some t → t ∈ exits.map (·.target) := by
  induction exits generalizing s calls with
  | nil => exact .inr ⟨none, s, calls, rfl, le_rfl, by simp⟩
  | cons e rest ih =>
    have htake : ∀ s calls, (pure (some e.target) : Run (Option ε) (σ × List (B ⊕ C)) _)
        (s, calls) = .ok (some e.target) (s, calls) := fun _ _ => rfl
    rcases ht : e.test with _ | ⟨c⟩ | ⟨id⟩ <;> simp only [firstTarget, ht]
    · exact .inr ⟨_, s, calls, rfl, le_rfl, by simp⟩
    · rcases record_cases limit (.inr c) (htest c) s calls with
        ⟨x, s', hr⟩ | ⟨b, s', hr, _⟩
      · exact .inl ⟨x, s', EStateM.bind_error hr⟩
      · have hr : (v.recording limit).test c (s, calls) = .ok b (s', calls ++ [.inr c]) := hr
        cases b with
        | true =>
          refine .inr ⟨_, s', _, (EStateM.bind_ok hr).trans (htake _ _), by simp, by simp⟩
        | false =>
          rcases ih s' (calls ++ [.inr c]) with ⟨x, s₁, h⟩ | ⟨o, s₁, calls₁, h, hle, ho⟩
          · exact .inl ⟨x, s₁, (EStateM.bind_ok hr).trans h⟩
          · refine .inr ⟨o, s₁, calls₁, (EStateM.bind_ok hr).trans h, ?_, fun t hto => ?_⟩
            · rw [List.length_append, List.length_singleton] at hle
              omega
            · exact List.mem_cons_of_mem _ (ho t hto)
    · exact .inr ⟨_, s, calls, rfl, le_rfl, by simp⟩

/-- Direct interpretation of a graph in which every reached block has a body ends or makes all the
calls that a recording visitor allows, if the calls themselves end. So the calls that two runs have
in common are their first ones, up to any number. -/
theorem finishes_interpret_recording
    (hblocks : ∀ n, g.Leads g.entry n → ∃ b exits absorbed,
      g.blocks[n]? = some ⟨some b, exits, absorbed⟩)
    (hbody : ∀ b s s', v.body b s ≠ .error .outOfFuel s')
    (htest : ∀ c s s', v.test c s ≠ .error .outOfFuel s') (limit : Nat) (s : σ) :
    ∃ r, Run.Finishes (g.interpret (v.recording limit) · g.entry) (s, []) r := by
  suffices h : ∀ fuel n s calls, g.Leads g.entry n → limit < fuel + calls.length + 1 →
      Run.Stopped (g.interpret (v.recording limit) fuel n (s, calls)) from
    ⟨_, h limit g.entry s [] .refl (Nat.lt_succ_self _), limit, rfl⟩
  intro fuel
  induction fuel with
  | zero =>
    intro n s calls hn hlt
    obtain ⟨b, exits, absorbed, hblk⟩ := hblocks n hn
    rcases record_cases limit (.inl b) (hbody b) s calls with
      ⟨e, s', hr⟩ | ⟨r, s', hr, hlen⟩
    · have hrun : g.runBody (v.recording limit) n (s, calls) = .error (.error e) s' := by
        simp only [runBody, hblk]
        exact hr
      unfold interpret
      rw [EStateM.bind_error hrun]
      trivial
    · omega
  | succ fuel ih =>
    intro n s calls hn hlt
    obtain ⟨b, exits, absorbed, hblk⟩ := hblocks n hn
    have hrunBody : g.runBody (v.recording limit) n =
        Visitor.record limit (.inl b) (v.body b) := by
      simp only [runBody, hblk]
      rfl
    unfold interpret
    rw [hrunBody]
    rcases record_cases limit (.inl b) (hbody b) s calls with
      ⟨e, s', hr⟩ | ⟨r, s', hr, hlen⟩
    · rw [EStateM.bind_error hr]
      trivial
    · rw [EStateM.bind_ok hr]
      cases r with
      | some value => trivial
      | none =>
        rcases firstTarget_recording htest limit (g.exits n) s' (calls ++ [.inl b]) with
          ⟨x, s₁, h⟩ | ⟨o, s₁, calls₁, h, hle, ho⟩
        · simp only
          rw [EStateM.bind_error h]
          trivial
        · simp only
          rw [EStateM.bind_ok h]
          cases o with
          | none => trivial
          | some t =>
            rw [List.length_append, List.length_singleton] at hle
            exact ih t s₁ calls₁ (hn.tail (ho t rfl)) (by omega)

/-- Walking the structured form of a graph is direct interpretation of the graph. A visitor that does
something on jumps back is told of some between the blocks; for one that does not, the results are
the same, and, if it records its calls and stops after `limit` of them, so are the calls. The same
holds after chains have been merged, where the parts of a joined body are run one after the other. -/
theorem walk_structurize (hbuilt : g.Built) (hval : g.validate = .ok ()) :
    (∃ x, g.structurize = .ok x ∧ ∀ {ε σ : Type} (v : Visitor B C ε σ), g.Returns v →
      SameCharged x g v ∧
        (v.Quiet → SameResults x g v ∧ ∀ limit, SameResults x g (v.recording limit))) ∧
    ∀ {A : Type} (parts : B → List A) (join : B → B → B),
      (∀ a b, parts (join a b) = parts a ++ parts b) →
      ∃ x, (g.coalesce join).structurize = .ok x ∧ ∀ {ε σ : Type} (v : Visitor A C ε σ),
        g.Returns (v.onAll parts) → SameCharged x g (v.onAll parts) ∧
          (v.Quiet → SameResults x g (v.onAll parts) ∧
            ∀ limit, SameResults x g ((v.recording limit).onAll parts)) := by
  constructor
  · obtain ⟨x, hx, hsame⟩ := same_structurize hval hbuilt.plain
    refine ⟨x, hx, fun v hret => ⟨(hsame v hret).1, fun hquiet => ⟨(hsame v hret).2 hquiet,
      fun limit => ?_⟩⟩⟩
    exact (hsame (v.recording limit) (hret.recording fun b s calls r s' calls' h =>
      body_recording h)).2 (hquiet.recording limit)
  · intro A parts join hparts
    obtain ⟨x, hx, hsame⟩ := same_coalesce hval hbuilt.plain hbuilt.bodied join
    have hjoin : ∀ {ε σ : Type} (v : Visitor A C ε σ), Joins (v.onAll parts) join := by
      intro ε σ v a b
      change v.runBodies (parts (join a b)) = _
      rw [hparts, Visitor.runBodies_append]
      rfl
    refine ⟨x, hx, fun v hret => ⟨(hsame _ (hjoin v) hret).1, fun hquiet =>
      ⟨(hsame _ (hjoin v) hret).2 hquiet, fun limit => ?_⟩⟩⟩
    exact (hsame _ (hjoin (v.recording limit)) (hret.recording fun b s calls r s' calls' h =>
      runBodies_recording h)).2 (hquiet.recording limit)

/-- A cycle of two blocks that is entered at both of them. -/
def crossing : Graph Nat Nat :=
  ((((((((((Graph.empty.addBlock 0).2.addBlock 1).2.addBlock 2).2.addBlock 3).2.addExit 0 (some 0)
    1).addExit 0 none 2).addExit 1 none 2).addExit 2 (some 1) 1).addExit 2 none 3).setEntry 0)

/-- Count the bodies, go the way that the parity of the count says, and return from the last body. -/
def counting : Visitor Nat Nat Empty UInt64 where
  body b := fun s => .ok (if b = 3 then some s else none) (s + 1)
  test c := fun s => .ok (s % 2 == UInt64.ofNat c) s
  backEdge := pure ()

lemma returns_crossing : crossing.Returns counting := by
  intro n hn hex s s'
  have hlt : n < 4 := Leads.lt (validate_eq_ok (g := crossing) rfl).1 (by decide) hn
  match n, hlt with
  | 0, _ => cases hex
  | 1, _ => cases hex
  | 2, _ => cases hex
  | 3, _ => exact fun h => by cases h

theorem walk_structurize_crossing :
    ∃ x, crossing.structurize = .ok x ∧ SameResults x crossing counting ∧
      ∀ limit, SameResults x crossing (counting.recording limit) := by
  have hbuilt : crossing.Built := by
    repeat' constructor
  obtain ⟨x, hx, hsame⟩ := (walk_structurize hbuilt rfl).1
  exact ⟨x, hx, (hsame counting returns_crossing).2 rfl⟩

end Graph

end Flow

end Dynarec
