import Dynarec.Flow.Dispatch
import Dynarec.Proofs.Flow.Placed
import Dynarec.Proofs.Flow.Reach

/-!
# Dispatchers keep the meaning

What is done to a graph before it is laid out changes neither the bodies that a run meets nor the
tests of the program that it makes: taking exits away from blocks that are never reached, putting a
fresh entry before the first block, and leading exits through a dispatcher. A run of the changed
graph charges other jumps back, so the jumps charged on the way between two blocks of the old graph
are those on the way between them in the new one.

Blocks below `count` are those of the program. They do not look at the dispatch variable, so a run
from one of them does not depend on it.
-/

namespace Dynarec.Flow

variable {B C ε σ : Type} {v : Shape.Visitor B C ε σ}

/-- Charging twice is charging once for both. -/
lemma charge_add (tick : Run ε σ Unit) (m n : Nat) :
    charge tick (m + n) = (do charge tick m; charge tick n) := by
  induction m with
  | zero => simp [charge]
  | succ m ih => rw [Nat.succ_add, charge, ih, charge, bind_assoc]

/-- Changing what exits lead to changes which exit is taken accordingly. -/
lemma takeExit_map (f : Exit C → Exit C) (hf : ∀ e, (f e).test = e.test) (d : Nat)
    (exits : List (Exit C)) :
    takeExit v d (exits.map f) = Option.map f <$> takeExit v d exits := by
  induction exits with
  | nil => rfl
  | cons e rest ih =>
    simp only [List.map_cons, takeExit, hf, ih]
    rcases e.test with _ | ⟨c⟩ | ⟨id⟩
    · rfl
    · simp only [map_bind]
      congr 1
      funext b
      cases b <;> rfl
    · simp only
      split <;> rfl

/-- The exit that is taken is one of the exits. -/
lemma mem_of_takeExit {d : Nat} {exits : List (Exit C)} {s s' : σ} {e : Exit C}
    (h : takeExit v d exits s = .ok (some e) s') : e ∈ exits := by
  induction exits generalizing s with
  | nil => cases h
  | cons e' rest ih =>
    rcases ht : e'.test with _ | ⟨c⟩ | ⟨id⟩ <;> simp only [takeExit, ht] at h
    · cases h
      exact List.mem_cons_self
    · obtain ⟨b, s₁, _, h⟩ := EStateM.of_bind_ok h
      cases b
      · exact List.mem_cons_of_mem _ (ih h)
      · cases h
        exact List.mem_cons_self
    · split at h
      · cases h
        exact List.mem_cons_self
      · exact List.mem_cons_of_mem _ (ih h)

/-- Exits that do not look at the dispatch variable are taken for any value of it. -/
lemma takeExit_plain {exits : List (Exit C)}
    (h : ∀ e ∈ exits, ∀ id, e.test ≠ some (.dispatchIs id)) (d d' : Nat) :
    takeExit v d exits = takeExit v d' exits := by
  induction exits with
  | nil => rfl
  | cons e rest ih =>
    have ih := ih fun e' he' => h e' (List.mem_cons_of_mem _ he')
    have he := h e List.mem_cons_self
    simp only [takeExit, ih]
    rcases ht : e.test with _ | ⟨c⟩ | ⟨id⟩
    · rfl
    · rfl
    · exact absurd ht (he id)

/-- Leading exits elsewhere keeps one of them without a test. -/
lemma Complete.map {exits : List (Exit C)} (h : Complete exits) {f : Exit C → Exit C}
    (hf : ∀ e, (f e).test = e.test) : Complete (exits.map f) := by
  induction h with
  | @last e ht => exact .last ((hf e).trans ht)
  | @test e t rest ht _ ih => exact .test ((hf e).trans ht) ih

namespace Graph

variable {g g' : Graph B C} {ticks ticks' : Nat → Nat → Nat} {count n d d' : Nat}

lemma mem_of_pick {s s' : σ} {e : Exit C} (h : g.pick v n d s = .ok (.inr (some e)) s') :
    e ∈ g.exits n := by
  obtain ⟨r, s₁, _, h⟩ := EStateM.of_bind_ok h
  cases r with
  | some x => cases h
  | none =>
    obtain ⟨o, s₂, ho, h⟩ := EStateM.of_bind_ok h
    cases h
    exact mem_of_takeExit ho

lemma pick_map {f : Exit C → Exit C} (hf : ∀ e, (f e).test = e.test)
    (hb : g'.runBody v n = g.runBody v n) (he : g'.exits n = (g.exits n).map f) :
    g'.pick v n d = Sum.map id (Option.map f) <$> g.pick v n d := by
  simp only [pick, hb, he, takeExit_map f hf, map_bind]
  congr 1
  funext r
  cases r with
  | some x => rfl
  | none => simp only [map_bind, bind_map_left, map_pure, Sum.map_inr]

/-- Only blocks from `count` on look at the dispatch variable, and exits to them set it. Those that
some exit leads to go on by one of their own exits. -/
structure Dispatching (count : Nat) (g : Graph B C) : Prop where
  le : count ≤ g.blocks.size
  complete : ∀ u n, count ≤ n → g.Edge u n → Complete (g.exits n)
  plain : ∀ n < count, ∀ e ∈ g.exits n, ∀ id, e.test ≠ some (.dispatchIs id)
  set : ∀ n, ∀ e ∈ g.exits n, count ≤ e.target → e.dispatch ≠ none

lemma Dispatching.pick_eq (h : g.Dispatching count) (hd : n < count ∨ d = d') :
    g.pick v n d = g.pick v n d' := by
  rcases hd with hn | rfl
  · simp only [pick, takeExit_plain (h.plain n hn) d d']
  · rfl

/-- A run ends with the same result from any value of the dispatch variable. -/
lemma Dispatching.ends (h : g.Dispatching count) {s : σ}
    {r : EStateM.Result (Halt ε) σ (Option UInt64)} (he : g.Ends v ticks n d s r)
    (hd : n < count ∨ d = d') : g.Ends v ticks n d' s r := by
  suffices hends : ∀ d', n < count ∨ d = d' → g.Ends v ticks n d' s r from hends d' hd
  refine Ends.induct he fun n d s hc d' hd => ?_
  rw [ends_iff_continues, ← h.pick_eq hd]
  refine hc.mono (fun _ _ _ => rfl) fun x s' hp s₁ hgo => hgo.2 _ ?_
  by_cases hx : x.target < count
  · exact .inl hx
  · cases hs : x.dispatch with
    | none => exact absurd hs (h.set n x (mem_of_pick hp) (Nat.le_of_not_lt hx))
    | some id => exact .inr rfl

/-! ### Inserting a dispatcher -/

/-- Where an exit leads after a dispatcher has been inserted. -/
def reroute (g : Graph B C) (entries : List Nat) (e : Exit C) : Exit C :=
  if (regionOf g.blocks.size entries).getD e.target false then
    { e with dispatch := some e.target, target := g.blocks.size }
  else e

lemma getD_regionOf (count : Nat) (members : List Nat) (w : Nat) :
    (regionOf count members).getD w false = true ↔ w ∈ members ∧ w < count := by
  have h : ∀ (region : Array Bool), (members.foldl (fun region v =>
      region.setIfInBounds v true) region).getD w false = true ↔
      region.getD w false = true ∨ w ∈ members ∧ w < region.size := by
    induction members with
    | nil => simp
    | cons m members ih =>
      intro region
      rw [List.foldl_cons, ih, getD_setIfInBounds, Array.size_setIfInBounds, List.mem_cons]
      by_cases hmw : m = w
      · subst hmw
        by_cases hm : m < region.size <;> simp [hm]
      · simp [hmw, Ne.symm hmw]
  have hz : (Array.replicate count false).getD w false = false := by
    simp only [Array.getD_eq_getD_getElem?, Array.getElem?_replicate]
    split <;> rfl
  rw [regionOf, h, hz]
  simp

lemma size_regionOf (count : Nat) (members : List Nat) : (regionOf count members).size = count := by
  have h : ∀ (region : Array Bool), (members.foldl (fun region v =>
      region.setIfInBounds v true) region).size = region.size := by
    induction members with
    | nil => exact fun _ => rfl
    | cons m members ih =>
      intro region
      rw [List.foldl_cons, ih, Array.size_setIfInBounds]
  rw [regionOf, h, Array.size_replicate]

lemma reroute_test (g : Graph B C) (es : List Nat) (e : Exit C) :
    (g.reroute es e).test = e.test := by
  unfold reroute
  split <;> rfl

lemma reroute_of_mem {es : List Nat} {e : Exit C} (h : e.target ∈ es)
    (hlt : e.target < g.blocks.size) :
    g.reroute es e = { e with dispatch := some e.target, target := g.blocks.size } :=
  if_pos ((getD_regionOf _ _ _).2 ⟨h, hlt⟩)

lemma reroute_of_not_mem {es : List Nat} {e : Exit C} (h : e.target ∉ es) :
    g.reroute es e = e :=
  if_neg fun hr => h ((getD_regionOf _ _ _).1 hr).1

lemma size_insertDispatcher (g : Graph B C) (es : List Nat) :
    (g.insertDispatcher es).2.blocks.size = g.blocks.size + 1 := by
  simp [insertDispatcher]

lemma exits_insertDispatcher (es : List Nat) (hn : n < g.blocks.size) :
    (g.insertDispatcher es).2.exits n = (g.exits n).map (g.reroute es) := by
  simp only [exits, insertDispatcher, Array.getElem?_push, Array.size_map, hn.ne, if_false,
    Array.getElem?_map, Array.getElem?_eq_getElem hn, Option.map_some]
  rfl

lemma block_dispatcher (g : Graph B C) (es : List Nat) :
    (g.insertDispatcher es).2.blocks[g.blocks.size]? = some ⟨none, dispatcherExits es, false⟩ := by
  simp only [insertDispatcher, Array.getElem?_push, Array.size_map, if_true]

lemma exits_dispatcher (g : Graph B C) (es : List Nat) :
    (g.insertDispatcher es).2.exits g.blocks.size = dispatcherExits es := by
  rw [exits, block_dispatcher]

lemma runBody_insertDispatcher (es : List Nat) (hn : n < g.blocks.size) :
    (g.insertDispatcher es).2.runBody v n = g.runBody v n := by
  simp only [runBody, insertDispatcher, Array.getElem?_push, Array.size_map, hn.ne, if_false,
    Array.getElem?_map, Array.getElem?_eq_getElem hn, Option.map_some]
  rcases g.blocks[n] with ⟨_ | b, _, _⟩ <;> rfl

lemma pick_insertDispatcher (es : List Nat) (hn : n < g.blocks.size) :
    (g.insertDispatcher es).2.pick v n d =
      Sum.map id (Option.map (g.reroute es)) <$> g.pick v n d :=
  pick_map (reroute_test g es) (runBody_insertDispatcher es hn) (exits_insertDispatcher es hn)

/-- A dispatcher goes on with the block that the dispatch variable names. -/
lemma takeExit_dispatcher {es : List Nat} {t : Nat} (ht : t ∈ es) (s : σ) :
    ∃ e : Exit C, takeExit v t (dispatcherExits es) s = .ok (some e) s ∧ e.target = t ∧
      e.dispatch = none := by
  induction es with
  | nil => cases ht
  | cons e es ih =>
    cases es with
    | nil =>
      obtain rfl := List.mem_singleton.1 ht
      exact ⟨_, rfl, rfl, rfl⟩
    | cons e' es =>
      simp only [dispatcherExits, takeExit]
      by_cases hte : t = e
      · subst hte
        exact ⟨⟨some (.dispatchIs t), t, none⟩, by rw [if_pos rfl]; rfl, rfl, rfl⟩
      · rw [if_neg hte]
        exact ih (by simpa [hte] using ht)

lemma pick_dispatcher {es : List Nat} {t : Nat} (ht : t ∈ es) (s : σ) :
    ∃ e : Exit C, (g.insertDispatcher es).2.pick v g.blocks.size t s = .ok (.inr (some e)) s ∧
      e.target = t ∧ e.dispatch = none := by
  obtain ⟨e, he, htarget, hd⟩ := takeExit_dispatcher (v := v) (C := C) ht s
  have hbody : (g.insertDispatcher es).2.runBody v g.blocks.size = return none := by
    rw [runBody, block_dispatcher]
  refine ⟨e, ?_, htarget, hd⟩
  rw [pick, hbody, exits_dispatcher]
  exact (EStateM.bind_ok rfl).trans (EStateM.bind_ok he)

/-- The jumps charged on the way between two blocks before a dispatcher was inserted. -/
def ticksBefore (g : Graph B C) (es : List Nat) (ticks : Nat → Nat → Nat) (n t : Nat) : Nat :=
  if (regionOf g.blocks.size es).getD t false then ticks n g.blocks.size + ticks g.blocks.size t
  else ticks n t

lemma targets_dispatcher (g : Graph B C) (es : List Nat) :
    (g.insertDispatcher es).2.targets g.blocks.size = es := by
  rw [targets, exits_dispatcher]
  induction es with
  | nil => rfl
  | cons e es ih =>
    cases es with
    | nil => rfl
    | cons e' es => rw [dispatcherExits, List.map_cons, ih]; simp

/-- Where the exits of a graph with a dispatcher lead. -/
lemma edge_insertDispatcher {es : List Nat} (hes : ∀ e ∈ es, e < g.blocks.size) {u w : Nat} :
    (g.insertDispatcher es).2.Edge u w ↔
      u < g.blocks.size ∧ (w ∉ es ∧ g.Edge u w ∨ w = g.blocks.size ∧ ∃ e ∈ es, g.Edge u e) ∨
        u = g.blocks.size ∧ w ∈ es := by
  rcases Nat.lt_trichotomy u g.blocks.size with hu | rfl | hu
  · simp only [hu, true_and, hu.ne, false_and, or_false]
    rw [Edge, targets, exits_insertDispatcher es hu, List.map_map, List.mem_map]
    constructor
    · rintro ⟨e, he, rfl⟩
      by_cases hm : e.target ∈ es
      · refine .inr ⟨?_, e.target, hm, edge_of_mem he⟩
        rw [Function.comp_apply, reroute_of_mem hm (hes _ hm)]
      · rw [Function.comp_apply, reroute_of_not_mem hm]
        exact .inl ⟨hm, edge_of_mem he⟩
    · rintro (⟨hw, he⟩ | ⟨rfl, e, hm, he⟩)
      · obtain ⟨x, hx, rfl⟩ := List.mem_map.1 he
        exact ⟨x, hx, by rw [Function.comp_apply, reroute_of_not_mem hw]⟩
      · obtain ⟨x, hx, rfl⟩ := List.mem_map.1 he
        exact ⟨x, hx, by rw [Function.comp_apply, reroute_of_mem hm (hes _ hm)]⟩
  · simp [Edge, targets_dispatcher]
  · have hlt : ¬ u < g.blocks.size := by omega
    have hne : u ≠ g.blocks.size := by omega
    simp only [hlt, hne, false_and, or_false, iff_false]
    intro he
    have := he.lt
    rw [size_insertDispatcher] at this
    omega

lemma inRange_insertDispatcher (hg : g.InRange) {es : List Nat}
    (hes : ∀ e ∈ es, e < g.blocks.size) : (g.insertDispatcher es).2.InRange where
  entry := by
    rw [size_insertDispatcher]
    exact Nat.lt_succ_of_lt hg.entry
  target {u w} he := by
    rw [size_insertDispatcher]
    rcases (edge_insertDispatcher hes).1 he with ⟨_, ⟨_, he⟩ | ⟨rfl, _⟩⟩ | ⟨_, hw⟩
    · exact Nat.lt_succ_of_lt (hg.target he)
    · exact Nat.lt_succ_self _
    · exact Nat.lt_succ_of_lt (hes w hw)

lemma complete_dispatcherExits {es : List Nat} {e : Nat} (he : e ∈ es) :
    Complete (dispatcherExits es : List (Exit C)) := by
  induction es generalizing e with
  | nil => cases he
  | cons a es ih =>
    cases es with
    | nil => exact .last rfl
    | cons b es => exact .test rfl (ih List.mem_cons_self)

lemma Proceeds.insertDispatcher (h : g.Proceeds v n) (es : List Nat) (hn : n < g.blocks.size) :
    (g.insertDispatcher es).2.Proceeds v n := by
  rw [Proceeds, exits_insertDispatcher es hn, runBody_insertDispatcher es hn]
  rcases h with h | ⟨he, hb⟩
  · exact .inl (h.map (reroute_test g es))
  · exact .inr ⟨by rw [he]; rfl, hb⟩

lemma dispatching_insertDispatcher (h : g.Dispatching count) (hg : g.InRange) {es : List Nat}
    (hes : ∀ e ∈ es, e < count) : (g.insertDispatcher es).2.Dispatching count where
  le := by
    rw [size_insertDispatcher]
    exact h.le.trans (Nat.le_succ _)
  complete u n hn he := by
    rcases (edge_insertDispatcher fun e he => (hes e he).trans_le h.le).1 he with
      ⟨_, ⟨_, he⟩ | ⟨rfl, e, hm, _⟩⟩ | ⟨_, hm⟩
    · rw [exits_insertDispatcher es (hg.target he)]
      exact (h.complete u n hn he).map (reroute_test g es)
    · rw [exits_dispatcher]
      exact complete_dispatcherExits hm
    · exact absurd (hes n hm) (Nat.not_lt_of_le hn)
  plain n hn e he id := by
    rw [exits_insertDispatcher es (hn.trans_le h.le)] at he
    obtain ⟨e', he', rfl⟩ := List.mem_map.1 he
    rw [reroute_test]
    exact h.plain n hn e' he' id
  set n e he hle := by
    rcases Nat.lt_trichotomy n g.blocks.size with hn | rfl | hn
    · rw [exits_insertDispatcher es hn] at he
      obtain ⟨e', he', rfl⟩ := List.mem_map.1 he
      by_cases hm : e'.target ∈ es
      · rw [reroute_of_mem hm ((hes _ hm).trans_le h.le)]
        simp
      · rw [reroute_of_not_mem hm] at hle ⊢
        exact h.set n e' he' hle
    · rw [exits_dispatcher] at he
      have htarget : ∀ es : List Nat, ∀ e ∈ (dispatcherExits es : List (Exit C)),
          e.target ∈ es := by
        intro es
        induction es with
        | nil => simp [dispatcherExits]
        | cons a es ih =>
          cases es with
          | nil => simp [dispatcherExits]
          | cons b es =>
            intro e he
            rcases List.mem_cons.1 he with rfl | he
            · exact List.mem_cons_self
            · exact List.mem_cons_of_mem _ (ih e he)
      exact absurd (hes _ (htarget es e he)) (Nat.not_lt_of_le hle)
    · have : (g.insertDispatcher es).2.blocks.size ≤ n := by
        rw [size_insertDispatcher]
        exact hn
      simp [exits, Array.getElem?_eq_none this] at he

section

variable {es : List Nat} {s : σ} {r : EStateM.Result (Halt ε) σ (Option UInt64)}

lemma ticksBefore_of_mem {t : Nat} (ht : t ∈ es) (hlt : t < g.blocks.size) :
    g.ticksBefore es ticks n t = ticks n g.blocks.size + ticks g.blocks.size t :=
  if_pos ((getD_regionOf _ _ _).2 ⟨ht, hlt⟩)

lemma ticksBefore_of_not_mem {t : Nat} (ht : t ∉ es) :
    g.ticksBefore es ticks n t = ticks n t :=
  if_neg fun hr => ht ((getD_regionOf _ _ _).1 hr).1

/-- What a run does before it goes on from a block: the charge for the way there may fail. -/
def EndsAfter (g : Graph B C) (v : Shape.Visitor B C ε σ) (ticks : Nat → Nat → Nat)
    (k n d : Nat) (s : σ) (r : EStateM.Result (Halt ε) σ (Option UInt64)) : Prop :=
  (∃ e s', charge v.backEdge k s = .error (.error e) s' ∧ r = .error (.error e) s') ∨
    ∃ s', charge v.backEdge k s = .ok () s' ∧ g.Ends v ticks n d s' r

/-- A run that takes an exit is charged for it and goes on. -/
lemma ends_iff_of_pick {s₁ : σ} {x : Exit C} (hp : g.pick v n d s = .ok (.inr (some x)) s₁) :
    g.Ends v ticks n d s r ↔
      g.EndsAfter v ticks (ticks n x.target) x.target (x.dispatch.getD d) s₁ r := by
  rw [ends_iff_continues, hp]
  rfl

/-- Without a charge a run goes on as it is. -/
lemma endsAfter_zero : g.EndsAfter v ticks 0 n d s r ↔ g.Ends v ticks n d s r := crosses_zero

/-- Charges before a run add up. -/
lemma endsAfter_add {k m : Nat} : g.EndsAfter v ticks (k + m) n d s r ↔
    (∃ e s', charge v.backEdge k s = .error (.error e) s' ∧ r = .error (.error e) s') ∨
      ∃ s', charge v.backEdge k s = .ok () s' ∧ g.EndsAfter v ticks m n d s' r := by
  simp only [EndsAfter, charge_add]
  constructor
  · rintro (⟨e, s', hc, rfl⟩ | ⟨s', hc, h⟩)
    · rcases EStateM.of_bind_error hc with hc | ⟨u, s₁, hc, hc'⟩
      · exact .inl ⟨e, s', hc, rfl⟩
      · exact .inr ⟨s₁, hc, .inl ⟨e, s', hc', rfl⟩⟩
    · obtain ⟨u, s₁, hc, hc'⟩ := EStateM.of_bind_ok hc
      exact .inr ⟨s₁, hc, .inr ⟨s', hc', h⟩⟩
  · rintro (⟨e, s', hc, rfl⟩ | ⟨s₁, hc, ⟨e, s', hc', rfl⟩ | ⟨s', hc', h⟩⟩)
    · exact .inl ⟨e, s', EStateM.bind_error hc, rfl⟩
    · exact .inl ⟨e, s', (EStateM.bind_ok hc).trans hc', rfl⟩
    · exact .inr ⟨s', (EStateM.bind_ok hc).trans hc', h⟩

/-- The value of the dispatch variable does not matter at a block of the program. -/
lemma Dispatching.endsAfter (h : g.Dispatching count) {k : Nat} (hn : n < count)
    (he : g.EndsAfter v ticks k n d s r) : g.EndsAfter v ticks k n d' s r := by
  rcases he with ⟨e, s', hc, rfl⟩ | ⟨s', hc, he⟩
  · exact .inl ⟨e, s', hc, rfl⟩
  · exact .inr ⟨s', hc, h.ends he (.inl hn)⟩

/-- Going on from where an exit led before is going on by the exit. -/
lemma endsAfter_reroute (h : g.Dispatching count) (hg : g.InRange) (hes : ∀ e ∈ es, e < count)
    {x : Exit C} (he : (g.insertDispatcher es).2.EndsAfter v ticks
      (g.ticksBefore es ticks n x.target) x.target (x.dispatch.getD d) s r) :
    (g.insertDispatcher es).2.EndsAfter v ticks (ticks n (g.reroute es x).target)
      (g.reroute es x).target ((g.reroute es x).dispatch.getD d) s r := by
  by_cases hx : x.target ∈ es
  · have hlt : x.target < g.blocks.size := (hes _ hx).trans_le h.le
    rw [ticksBefore_of_mem hx hlt, endsAfter_add] at he
    rw [reroute_of_mem hx hlt]
    refine he.imp_right fun ⟨s', hc, he⟩ => ⟨s', hc, ?_⟩
    obtain ⟨y, hy, hyt, _⟩ := pick_dispatcher (g := g) (v := v) hx s'
    rw [Option.getD_some, ends_iff_of_pick hy, hyt]
    exact (dispatching_insertDispatcher h hg hes).endsAfter (hes _ hx) he
  · rw [ticksBefore_of_not_mem hx] at he
    rw [reroute_of_not_mem hx]
    exact he

/-- A run of the old graph is one of the graph with a dispatcher. -/
lemma ends_insertDispatcher_of_ends (h : g.Dispatching count) (hg : g.InRange)
    (hes : ∀ e ∈ es, e < count) (he : g.Ends v (g.ticksBefore es ticks) n d s r)
    (hn : n < g.blocks.size) : (g.insertDispatcher es).2.Ends v ticks n d s r := by
  revert hn
  refine Ends.induct he fun n d s hc hn => ?_
  rw [ends_iff_continues, pick_insertDispatcher es hn, continues_map]
  refine hc.imp fun x s₁ hp hx => endsAfter_reroute h hg hes (hx.mono fun s₂ hgo => ?_)
  exact hgo.2 (hg.target (edge_of_mem (mem_of_pick hp)))

/-- A run of the graph with a dispatcher is one of the old graph. At the dispatcher the block that
the variable names has been left for already. -/
lemma ends_of_ends_insertDispatcher (h : g.Dispatching count) (hg : g.InRange)
    (hes : ∀ e ∈ es, e < count) (he : (g.insertDispatcher es).2.Ends v ticks n d s r) :
    (n < g.blocks.size → g.Ends v (g.ticksBefore es ticks) n d s r) ∧
      (n = g.blocks.size → d ∈ es →
        g.EndsAfter v (g.ticksBefore es ticks) (ticks n d) d d s r) := by
  refine Ends.induct he fun n d s hc => ⟨fun hn => ?_, ?_⟩
  · rw [pick_insertDispatcher es hn, continues_map] at hc
    rw [ends_iff_continues]
    refine hc.imp fun x s₁ hp hx => ?_
    have hlt : x.target < g.blocks.size := hg.target (edge_of_mem (mem_of_pick hp))
    by_cases hm : x.target ∈ es
    · simp only [reroute_of_mem hm hlt] at hx
      rw [ticksBefore_of_mem hm hlt]
      exact h.endsAfter (hes _ hm) (endsAfter_add.2 (hx.mono fun s₂ hgo => hgo.2.2 trivial hm))
    · simp only [reroute_of_not_mem hm] at hx
      rw [ticksBefore_of_not_mem hm]
      exact hx.mono fun s₂ hgo => hgo.2.1 hlt
  · -- the exit from a dispatcher is the one that the variable names
    rintro rfl hd
    obtain ⟨y, hy, hyt, hyd⟩ := pick_dispatcher (g := g) (v := v) hd s
    rw [hy] at hc
    simp only [Continues, hyt, hyd, Option.getD_none] at hc
    exact hc.mono fun s' hgo => hgo.2.1 ((hes _ hd).trans_le h.le)

/-- A dispatcher changes nothing but the jumps back that are charged. -/
theorem ends_insertDispatcher (h : g.Dispatching count) (hg : g.InRange)
    (hes : ∀ e ∈ es, e < count) (hn : n < g.blocks.size) :
    g.Ends v (g.ticksBefore es ticks) n d s r ↔ (g.insertDispatcher es).2.Ends v ticks n d s r :=
  ⟨fun he => ends_insertDispatcher_of_ends h hg hes he hn,
    fun he => (ends_of_ends_insertDispatcher h hg hes he).1 hn⟩

end

end Graph

end Dynarec.Flow
