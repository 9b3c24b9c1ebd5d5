import Dynarec.Proofs.Shape.Congruence
import Dynarec.Proofs.Shape.Sequence

/-!
# Watching the dispatch variable

A watched shape takes notes beside its run: which value the dispatch variable was last set to, and
which value that was whenever a test looked at the variable. `Guarded` is a logic for these notes: it
says of a shape, from what the variable was last set to, that every test looks at allowed values, and
what is known where control leaves the shape.
-/

namespace Dynarec

variable {B C ε σ α β : Type}

/-- What is noted: the dispatch variable is set, or a test looks at it. -/
inductive Note where
  | set (id : Nat)
  | look (id : Nat)

/-- The notes of a run: what the dispatch variable was last set to, and for every look at it the value
that was asked for with the one that it was last set to then. -/
structure Watch where
  last : Option Nat
  looks : List (Nat × Option Nat)

namespace Watch

/-- No notes. -/
def start : Watch := ⟨none, []⟩

/-- Take a note. -/
def note : Note → Watch → Watch
  | .set id, w => { w with last := some id }
  | .look id, w => { w with looks := w.looks ++ [(id, w.last)] }

/-- Only allowed values were looked at. -/
def Fine (allowed : Nat → Option Nat → Prop) (w : Watch) : Prop :=
  ∀ look ∈ w.looks, allowed look.1 look.2

/-- The notes beside the result of a run. -/
def beside (w : Watch) : EStateM.Result (Halt ε) σ α → EStateM.Result (Halt ε) (σ × Watch) α
  | .ok a s => .ok a (s, w)
  | .error e s => .error e (s, w)

/-- A run that takes no notes. -/
def aside (x : Run ε σ α) : Run ε (σ × Watch) α := fun (s, w) => w.beside (x s)

end Watch

namespace Shape

mutual

/-- The shape with a note wherever the dispatch variable has been set or is looked at. -/
def watched : Shape B C → Shape (B ⊕ Note) C
  | .seq items => .seq (watchedAll items)
  | .body b => .body (.inl b)
  | .block label inner => .block label inner.watched
  | .loop label inner => .loop label inner.watched
  | .cond (.cond c) yes no => .cond (.cond c) yes.watched no.watched
  | .cond (.dispatchIs id) yes no =>
    .seq [.body (.inr (.look id)), .cond (.dispatchIs id) yes.watched no.watched]
  | .br label => .br label
  | .setDispatch id => .seq [.setDispatch id, .body (.inr (.set id))]

/-- Shapes with a note wherever the dispatch variable has been set or is looked at. -/
def watchedAll : List (Shape B C) → List (Shape (B ⊕ Note) C)
  | [] => []
  | x :: rest => x.watched :: watchedAll rest

end

/-- The visitor that takes the notes. -/
def Visitor.watching (v : Visitor B C ε σ) : Visitor (B ⊕ Note) C ε (σ × Watch) where
  body
    | .inl b => Watch.aside (v.body b)
    | .inr n => fun (s, w) => .ok none (s, w.note n)
  test c := Watch.aside (v.test c)
  backEdge := Watch.aside v.backEdge

section

variable (v : Visitor B C ε σ) (fuel : Nat)

/-- A note is taken before the shape that follows. -/
lemma run_note (n : Note) (x : Shape (B ⊕ Note) C) (d : Nat) (s : σ) (w : Watch) :
    run v.watching fuel (.seq [.body (.inr n), x]) d (s, w) =
      run v.watching fuel x d (s, w.note n) := by
  have hbody : run v.watching fuel (.body (.inr n)) d (s, w) = .ok (.next, d) (s, w.note n) := by
    rw [run]
    rfl
  rw [run, runList]
  exact (EStateM.bind_ok hbody).trans (congrFun (runList_singleton ..) _)

/-- A note is taken when the dispatch variable has been set. -/
lemma run_set (id d : Nat) (s : σ) (w : Watch) :
    run v.watching fuel (.seq [.setDispatch id, .body (.inr (.set id))]) d (s, w) =
      .ok (.next, id) (s, w.note (.set id)) := by
  have hset : run v.watching fuel (.setDispatch id) d (s, w) = .ok (.next, id) (s, w) := by
    rw [run]
    rfl
  rw [run, runList]
  refine (EStateM.bind_ok hset).trans ((congrFun (runList_singleton ..) _).trans ?_)
  rw [run]
  rfl

end

/-! ### Watching changes nothing -/

/-- The second run is the first one with notes beside it. -/
def Beside (x : Run ε σ α) (y : Run ε (σ × Watch) α) : Prop :=
  ∀ s w, ∃ w' : Watch, y (s, w) = w'.beside (x s)

lemma beside_aside (x : Run ε σ α) : Beside x (Watch.aside x) := fun _ w => ⟨w, rfl⟩

lemma Beside.bind {x : Run ε σ α} {y : Run ε (σ × Watch) α} {f : α → Run ε σ β}
    {g : α → Run ε (σ × Watch) β} (h : Beside x y) (hf : ∀ a, Beside (f a) (g a)) :
    Beside (x >>= f) (y >>= g) := by
  intro s w
  obtain ⟨w₁, h⟩ := h s w
  cases hx : x s with
  | ok a s₁ =>
    rw [hx] at h
    rw [EStateM.bind_ok hx, EStateM.bind_ok h]
    exact hf a s₁ w₁
  | error e s₁ =>
    rw [hx] at h
    rw [EStateM.bind_error hx, EStateM.bind_error h]
    exact ⟨w₁, rfl⟩

/-- Running beside notes is kept step by step. -/
abbrev besides (ε σ : Type) : Run.Congruence ε σ (σ × Watch) where
  Rel := Beside
  pure a := beside_aside (pure a)
  bind := Beside.bind

variable {v : Visitor B C ε σ} {fuel : Nat}

mutual

lemma run_watched : (x : Shape B C) → (d : Nat) →
    Beside (x.run v fuel d) (x.watched.run v.watching fuel d)
  | .seq items, d => by
    rw [watched, run, run]
    exact runList_watched items d
  | .body b, d => by
    rw [watched, run, run]
    refine (beside_aside (v.body b)).bind fun r => ?_
    cases r <;> exact beside_aside (pure _)
  | .block label inner, d => by
    rw [watched, run, run]
    exact (run_watched inner d).bind fun _ => beside_aside (pure _)
  | .loop label inner, d => by
    rw [watched, run, run]
    exact iterate_rel (besides ε σ) (beside_aside (throw _)) (beside_aside v.backEdge)
      (run_watched inner) d
  | .cond (.cond c) yes no, d => by
    rw [watched, run, run]
    refine (beside_aside (v.test c)).bind fun b => ?_
    cases b with
    | true => exact run_watched yes d
    | false => exact run_watched no d
  | .cond (.dispatchIs id) yes no, d => by
    intro s w
    rw [watched, run_note, run, run]
    split
    · exact run_watched yes d s _
    · exact run_watched no d s _
  | .br label, d => by
    rw [watched, run, run]
    exact beside_aside (pure _)
  | .setDispatch id, d => by
    intro s w
    rw [watched, run_set, run]
    exact ⟨_, rfl⟩

lemma runList_watched : (items : List (Shape B C)) → (d : Nat) →
    Beside (runList v fuel items d) (runList v.watching fuel (watchedAll items) d)
  | [], d => by
    rw [watchedAll, runList, runList]
    exact beside_aside (pure _)
  | x :: rest, d => by
    rw [watchedAll, runList, runList]
    apply (run_watched x d).bind
    rintro ⟨c, d'⟩
    cases c with
    | next => exact runList_watched rest d'
    | jump label => exact beside_aside (pure _)
    | ret value => exact beside_aside (pure _)

end

/-! ### What is noted -/

section

variable (allowed : Nat → Option Nat → Prop) (goes : B → Prop)

mutual

/-- From what the dispatch variable was last set to, every test of a shape looks at allowed values,
and certain things are known where control jumps to a label or comes to the end of the shape. Only
some bodies go on at their end. -/
def Guarded : Shape B C → (Nat → Option Nat → Prop) → (Option Nat → Prop) → Option Nat → Prop
  | .seq items, jump, next, a => GuardedAll items jump next a
  | .body b, _, next, a => goes b → next a
  | .block label inner, jump, next, a =>
    Guarded inner (fun k b => if k = label then next b else jump k b) next a
  | .loop label inner, jump, next, a =>
    ∃ again : Option Nat → Prop, again a ∧ ∀ b, again b →
      Guarded inner (fun k b => if k = label then again b else jump k b) next b
  | .cond (.cond _) yes no, jump, next, a => Guarded yes jump next a ∧ Guarded no jump next a
  | .cond (.dispatchIs id) yes no, jump, next, a =>
    allowed id a ∧ Guarded yes jump next a ∧ Guarded no jump next a
  | .br label, jump, _, a => jump label a
  | .setDispatch id, _, next, _ => next (some id)

/-- Every test of shapes in sequence looks at allowed values. -/
def GuardedAll : List (Shape B C) → (Nat → Option Nat → Prop) → (Option Nat → Prop) → Option Nat →
    Prop
  | [], _, next, a => next a
  | x :: rest, jump, next, a => Guarded x jump (GuardedAll rest jump next) a

end

end

section

variable {allowed : Nat → Option Nat → Prop} {goes : B → Prop} {jump : Nat → Option Nat → Prop}
  {next : Option Nat → Prop} {a : Option Nat}

lemma guardedAll_append {xs ys : List (Shape B C)} :
    GuardedAll allowed goes (xs ++ ys) jump next a ↔
      GuardedAll allowed goes xs jump (GuardedAll allowed goes ys jump next) a := by
  induction xs generalizing a with
  | nil => rfl
  | cons x xs ih =>
    have hrest : GuardedAll allowed goes (xs ++ ys) jump next =
        GuardedAll allowed goes xs jump (GuardedAll allowed goes ys jump next) :=
      funext fun b => propext ih
    rw [List.cons_append, GuardedAll, GuardedAll, hrest]

lemma guardedAll_members (x : Shape B C) :
    GuardedAll allowed goes x.members jump next = x.Guarded allowed goes jump next := by
  funext a
  cases x with
  | seq items => rw [members, Guarded]
  | _ => rfl

lemma guardedAll_flatMap (xs : List (Shape B C)) :
    GuardedAll allowed goes (xs.flatMap members) jump next =
      GuardedAll allowed goes xs jump next := by
  induction xs with
  | nil => rfl
  | cons x xs ih =>
    funext a
    rw [List.flatMap_cons, guardedAll_append, guardedAll_members, ih, GuardedAll]

/-- Putting shapes in sequence keeps what is known of them. -/
lemma guarded_ofList (xs : List (Shape B C)) :
    (ofList xs).Guarded allowed goes jump next = GuardedAll allowed goes xs jump next := by
  rw [← guardedAll_flatMap]
  unfold ofList
  split
  · next x hx =>
    funext a
    rw [hx, GuardedAll]
    rfl
  · funext a
    rw [Guarded]

end

/-! ### The notes of guarded shapes -/

/-- A run that starts with fine notes leaves fine notes, and something is known of its result and of
what the dispatch variable was last set to. -/
def Ensures (allowed : Nat → Option Nat → Prop) (a : Option Nat) (y : Run ε (σ × Watch) α)
    (post : α → Option Nat → Prop) : Prop :=
  ∀ s w, w.last = a → w.Fine allowed → (EStateM.after (y (s, w))).2.Fine allowed ∧
    ∀ r s' w', y (s, w) = .ok r (s', w') → post r w'.last

section

variable {allowed : Nat → Option Nat → Prop} {a : Option Nat}

lemma ensures_aside {x : Run ε σ α} {post : α → Option Nat → Prop}
    (h : ∀ s r s', x s = .ok r s' → post r a) : Ensures allowed a (Watch.aside x) post := by
  intro s w hw hfine
  cases hx : x s with
  | ok r s₁ =>
    have hy : Watch.aside x (s, w) = .ok r (s₁, w) := by
      show w.beside (x s) = _
      rw [hx]
      rfl
    rw [hy]
    refine ⟨hfine, fun r' s' w' h' => ?_⟩
    cases h'
    exact hw ▸ h s r s₁ hx
  | error e s₁ =>
    have hy : Watch.aside x (s, w) = .error e (s₁, w) := by
      show w.beside (x s) = _
      rw [hx]
      rfl
    rw [hy]
    exact ⟨hfine, nofun⟩

lemma ensures_pure {r : α} {post : α → Option Nat → Prop} (h : post r a) :
    Ensures (ε := ε) (σ := σ) allowed a (pure r) post := by
  intro s w hw hfine
  refine ⟨hfine, fun r' s' w' h' => ?_⟩
  cases h'
  exact hw ▸ h

lemma Ensures.bind {y : Run ε (σ × Watch) α} {f : α → Run ε (σ × Watch) β}
    {mid : α → Option Nat → Prop} {post : β → Option Nat → Prop} (h : Ensures allowed a y mid)
    (hf : ∀ r b, mid r b → Ensures allowed b (f r) post) : Ensures allowed a (y >>= f) post := by
  intro s w hw hfine
  obtain ⟨hfine₁, hmid⟩ := h s w hw hfine
  cases hy : y (s, w) with
  | ok r p =>
    rw [hy] at hfine₁
    rw [EStateM.bind_ok hy]
    exact hf r _ (hmid r p.1 p.2 hy) p.1 p.2 rfl hfine₁
  | error e p =>
    rw [hy] at hfine₁
    rw [EStateM.bind_error hy]
    exact ⟨hfine₁, nofun⟩

end

/-- What is known where control leaves a shape. -/
def Leaves (jump : Nat → Option Nat → Prop) (next : Option Nat → Prop) :
    Control × Nat → Option Nat → Prop
  | (.next, _), a => next a
  | (.jump label, _), a => jump label a
  | (.ret _, _), _ => True

section

variable {allowed : Nat → Option Nat → Prop} {goes : B → Prop} {v : Visitor B C ε σ} {fuel : Nat}

/-- A loop leaves fine notes if its inside does from all that may hold when it starts again. -/
lemma ensures_iterate {jump : Nat → Option Nat → Prop} {next again : Option Nat → Prop}
    {label : Nat} {inner : Nat → Run ε (σ × Watch) (Control × Nat)}
    (h : ∀ b d, again b → Ensures allowed b (inner d)
      (Leaves (fun k b => if k = label then again b else jump k b) next))
    {a : Option Nat} (ha : again a) (d : Nat) :
    Ensures allowed a (iterate (Watch.aside v.backEdge) label inner fuel d) (Leaves jump next) := by
  induction fuel generalizing a d with
  | zero => exact fun s w _ hfine => ⟨hfine, nofun⟩
  | succ fuel ih =>
    rw [iterate]
    apply (h a d ha).bind
    rintro ⟨c, d'⟩ b hleaves
    dsimp only
    split
    · next hc =>
      subst hc
      have hb : again b := by
        have := hleaves
        rwa [Leaves, if_pos rfl] at this
      have hback : Ensures allowed b (Watch.aside v.backEdge) fun _ b' => b' = b :=
        ensures_aside fun _ _ _ _ => rfl
      exact hback.bind fun _ b' hb' => ih (hb' ▸ hb) d'
    · next hc =>
      refine ensures_pure ?_
      cases c with
      | next => exact hleaves
      | jump k =>
        have hk : k ≠ label := fun hk => hc (hk ▸ rfl)
        have := hleaves
        rwa [Leaves, if_neg hk] at this
      | ret value => trivial

/-- Control that jumps to the label of a block goes on behind it. -/
lemma leaves_block {jump : Nat → Option Nat → Prop} {next : Option Nat → Prop} {label d : Nat}
    {c : Control} {b : Option Nat}
    (h : Leaves (fun k b => if k = label then next b else jump k b) next (c, d) b) :
    Leaves jump next (if c = .jump label then .next else c, d) b := by
  cases c with
  | next => exact h
  | jump k =>
    rw [Leaves] at h
    by_cases hk : k = label
    · rw [if_pos hk] at h
      rwa [hk, if_pos rfl]
    · rw [if_neg hk] at h
      rwa [if_neg fun heq => hk (Control.jump.inj heq)]
  | ret value => trivial

mutual

/-- The tests of a guarded shape look at allowed values only. -/
lemma ensures_run (hgoes : ∀ b s s', v.body b s = .ok none s' → goes b) : (x : Shape B C) →
    {jump : Nat → Option Nat → Prop} → {next : Option Nat → Prop} → {a : Option Nat} →
    x.Guarded allowed goes jump next a → (d : Nat) →
      Ensures allowed a (x.watched.run v.watching fuel d) (Leaves jump next)
  | .seq items, jump, next, a, h, d => by
    rw [watched, run]
    exact ensures_runList hgoes items h d
  | .body b, jump, next, a, h, d => by
    rw [watched, run]
    have hbody : Ensures allowed a (v.watching.body (.inl b))
        fun r b' => b' = a ∧ (r = none → goes b) :=
      ensures_aside fun s r s' hr => ⟨rfl, fun hnone => hgoes b s s' (hnone ▸ hr)⟩
    apply hbody.bind
    rintro r b' ⟨rfl, hr⟩
    cases r with
    | none => exact ensures_pure (h (hr rfl))
    | some value => exact ensures_pure trivial
  | .block label inner, jump, next, a, h, d => by
    rw [watched, run]
    apply (ensures_run hgoes inner h d).bind
    rintro ⟨c, d'⟩ b hleaves
    exact ensures_pure (leaves_block hleaves)
  | .loop label inner, jump, next, a, h, d => by
    rw [watched, run]
    obtain ⟨again, ha, hinner⟩ := h
    exact ensures_iterate (fun b d hb => ensures_run hgoes inner (hinner b hb) d) ha d
  | .cond (.cond c) yes no, jump, next, a, h, d => by
    rw [watched, run]
    have htest : Ensures allowed a (v.watching.test c) fun _ b => b = a :=
      ensures_aside fun _ _ _ _ => rfl
    apply htest.bind
    rintro r b rfl
    cases r with
    | true => exact ensures_run hgoes yes h.1 d
    | false => exact ensures_run hgoes no h.2 d
  | .cond (.dispatchIs id) yes no, jump, next, a, h, d => by
    intro s w hw hfine
    have hfine' : (w.note (.look id)).Fine allowed := by
      intro look hlook
      rcases List.mem_append.1 hlook with hlook | hlook
      · exact hfine look hlook
      · obtain rfl := List.mem_singleton.1 hlook
        exact hw ▸ h.1
    rw [watched, run_note, run]
    split
    · exact ensures_run hgoes yes h.2.1 d s _ hw hfine'
    · exact ensures_run hgoes no h.2.2 d s _ hw hfine'
  | .br label, jump, next, a, h, d => by
    rw [watched, run]
    exact ensures_pure h
  | .setDispatch id, jump, next, a, h, d => by
    intro s w hw hfine
    rw [watched, run_set]
    refine ⟨hfine, fun r s' w' h' => ?_⟩
    cases h'
    exact h

lemma ensures_runList (hgoes : ∀ b s s', v.body b s = .ok none s' → goes b) :
    (items : List (Shape B C)) →
    {jump : Nat → Option Nat → Prop} → {next : Option Nat → Prop} → {a : Option Nat} →
    GuardedAll allowed goes items jump next a → (d : Nat) →
      Ensures allowed a (runList v.watching fuel (watchedAll items) d) (Leaves jump next)
  | [], jump, next, a, h, d => by
    rw [watchedAll, runList]
    exact ensures_pure h
  | x :: rest, jump, next, a, h, d => by
    rw [watchedAll, runList]
    apply (ensures_run hgoes x h d).bind
    rintro ⟨c, d'⟩ b hleaves
    cases c with
    | next => exact ensures_runList hgoes rest hleaves d'
    | jump label => exact ensures_pure hleaves
    | ret value => exact ensures_pure trivial

end

/-- A walk of a watched shape is a walk of the shape, and if the shape is guarded its tests look at
allowed values only. -/
theorem walk_watched {x : Shape B C} {jump : Nat → Option Nat → Prop} {next : Option Nat → Prop}
    (h : x.Guarded allowed goes jump next none) (hgoes : ∀ b s s', v.body b s = .ok none s' → goes b)
    (fuel : Nat) (s : σ) :
    ∃ w : Watch, x.watched.walk v.watching fuel (s, .start) = w.beside (x.walk v fuel s) ∧
      w.Fine allowed := by
  have hrun : Beside (x.walk v fuel) (x.watched.walk v.watching fuel) := by
    unfold walk
    apply (run_watched x 0).bind
    rintro ⟨c, d⟩
    cases c <;> exact beside_aside (pure _)
  have hensures : Ensures allowed none (x.watched.walk v.watching fuel) fun _ _ => True := by
    unfold walk
    apply (ensures_run hgoes x h 0).bind
    rintro ⟨c, d⟩ b -
    cases c <;> exact ensures_pure trivial
  obtain ⟨w, hw⟩ := hrun s .start
  refine ⟨w, hw, ?_⟩
  have hfine := (hensures s .start rfl (by simp [Watch.Fine, Watch.start])).1
  rw [hw] at hfine
  cases hx : x.walk v fuel s <;> rw [hx] at hfine <;> exact hfine

end

end Shape

end Dynarec
