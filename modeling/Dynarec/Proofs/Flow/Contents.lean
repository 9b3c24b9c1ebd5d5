import Dynarec.Proofs.Flow.Dispatchers
import Dynarec.Proofs.Flow.Guarded
import Dynarec.Proofs.Flow.Meaning
import Dynarec.Proofs.Flow.Scoped

/-!
# Contents of structured forms

The graph that is laid out has the bodies and conditions of the graph that it is made from: a fresh
entry and dispatchers have none. So the structured form has the body of every block that is reached,
and each condition of its exits, exactly once. Its labels are distinct, each jump stands inside the
construct with its label, and a dispatcher is reached only when the dispatch variable was last set to
one of its entries.
-/

namespace Dynarec.Flow

open Relation (ReflTransGen)

variable {B C ε σ : Type}

namespace Graph

variable {g h k : Graph B C} {es : List Nat} {log : List (List Nat)} {n : Nat}

/-- The conditions of the program that the exits of a block ask. -/
def conditions (g : Graph B C) (n : Nat) : List C := (g.tests n).filterMap Test.condition?

/-- Every block ends with exits as it should, or has none. -/
def Ended (g : Graph B C) : Prop := ∀ n, g.exits n = [] ∨ Complete (g.exits n)

/-- A graph `h` has the blocks of `g` that are reached, and other blocks without bodies and
conditions of the program. -/
structure Grown (g h : Graph B C) : Prop where
  size : g.blocks.size ≤ h.blocks.size
  body (n : Nat) : h.body? n = g.body? n
  conditions : ∀ n, h.Leads h.entry n → h.conditions n = g.conditions n
  leads : ∀ n, n < g.blocks.size → (h.Leads h.entry n ↔ g.Leads g.entry n)
  ended : g.Ended → h.Ended

lemma conditions_of_size_le (hn : g.blocks.size ≤ n) : g.conditions n = [] := by
  rw [Graph.conditions, tests, exits, Array.getElem?_eq_none hn]
  rfl

lemma Grown.refl (g : Graph B C) : g.Grown g :=
  ⟨le_rfl, fun _ => rfl, fun _ _ => rfl, fun _ _ => Iff.rfl, id⟩

lemma Grown.trans (hgh : g.Grown h) (hhk : h.Grown k) : g.Grown k where
  size := hgh.size.trans hhk.size
  body n := (hhk.body n).trans (hgh.body n)
  conditions n hn := by
    rw [hhk.conditions n hn]
    rcases Nat.lt_or_ge n h.blocks.size with hlt | hge
    · exact hgh.conditions n ((hhk.leads n hlt).1 hn)
    · rw [conditions_of_size_le hge, conditions_of_size_le (hgh.size.trans hge)]
  leads n hn := (hhk.leads n (hn.trans_le hgh.size)).trans (hgh.leads n hn)
  ended he := hhk.ended (hgh.ended he)

/-! ### The steps that prepare a graph -/

lemma grown_prune (hg : g.InRange) : g.Grown g.prune where
  size := (size_prune g).ge
  body n := by
    simp only [body?, prune, Array.getElem?_mapIdx]
    cases g.reachable.getD n false <;> rcases g.blocks[n]? with _ | ⟨_ | b, _, _⟩ <;> rfl
  conditions n hn := by
    rw [Graph.conditions, Graph.conditions, tests, tests, exits_prune hg n (leads_of_prune hg hn)]
  leads n _ := ⟨leads_of_prune hg, leads_prune hg⟩
  ended he n := by
    by_cases hn : g.Leads g.entry n
    · rw [exits_prune hg n hn]
      exact he n
    · exact .inl (exits_prune_nil hg n hn)

lemma grown_prepend (hg : g.InRange) : g.Grown g.prepend where
  size := by
    rw [size_prepend]
    exact Nat.le_succ _
  body n := by
    simp only [body?, prepend, Array.getElem?_push]
    split
    · next hn => rw [hn, Array.getElem?_eq_none le_rfl]; rfl
    · rfl
  conditions n hn := by
    rcases leads_prepend.1 hn with rfl | hn
    · rw [conditions_of_size_le le_rfl, Graph.conditions, tests, exits_prepend_entry]
      rfl
    · rw [Graph.conditions, Graph.conditions, tests, tests,
        exits_prepend (Leads.lt hg hg.entry hn)]
  leads n hn := leads_prepend.trans (or_iff_right hn.ne)
  ended he n := by
    rcases Nat.lt_trichotomy n g.blocks.size with hn | rfl | hn
    · rw [exits_prepend hn]
      exact he n
    · rw [exits_prepend_entry]
      exact .inr (.last rfl)
    · refine .inl ?_
      rw [exits, Array.getElem?_eq_none]
      rw [size_prepend]
      exact hn

/-- What the exits of a dispatcher are. -/
lemma of_mem_dispatcherExits {e : Exit C} (he : e ∈ dispatcherExits es) :
    e.target ∈ es ∧ (e.test = none ∨ e.test = some (.dispatchIs e.target)) := by
  induction es with
  | nil => cases he
  | cons a es ih =>
    cases es with
    | nil =>
      obtain rfl := List.mem_singleton.1 he
      exact ⟨List.mem_cons_self, .inl rfl⟩
    | cons b es =>
      rcases List.mem_cons.1 he with rfl | he
      · exact ⟨List.mem_cons_self, .inr rfl⟩
      · exact ⟨List.mem_cons_of_mem _ (ih he).1, (ih he).2⟩

lemma exits_of_size_le (hn : g.blocks.size ≤ n) : g.exits n = [] := by
  rw [exits, Array.getElem?_eq_none hn]

/-- A block of a graph with a dispatcher is an old one with its exits led there, or the dispatcher, or
none. -/
lemma exits_insertDispatcher_cases (g : Graph B C) (es : List Nat) (n : Nat) :
    n < g.blocks.size ∧ (g.insertDispatcher es).2.exits n = (g.exits n).map (g.reroute es) ∨
      n = g.blocks.size ∧ (g.insertDispatcher es).2.exits n = dispatcherExits es ∨
        g.blocks.size < n ∧ (g.insertDispatcher es).2.exits n = [] := by
  rcases Nat.lt_trichotomy n g.blocks.size with hn | rfl | hn
  · exact .inl ⟨hn, exits_insertDispatcher es hn⟩
  · exact .inr (.inl ⟨rfl, exits_dispatcher g es⟩)
  · refine .inr (.inr ⟨hn, exits_of_size_le ?_⟩)
    rw [size_insertDispatcher]
    exact hn

lemma body?_insertDispatcher (g : Graph B C) (es : List Nat) (n : Nat) :
    (g.insertDispatcher es).2.body? n = g.body? n := by
  rcases Nat.lt_trichotomy n g.blocks.size with hn | rfl | hn
  · simp only [body?, insertDispatcher, Array.getElem?_push, Array.size_map, hn.ne, if_false,
      Array.getElem?_map, Array.getElem?_eq_getElem hn]
    rfl
  · rw [body?, block_dispatcher, body?, Array.getElem?_eq_none le_rfl]
    rfl
  · have hsize := size_insertDispatcher g es
    rw [body?, body?, Array.getElem?_eq_none hn.le, Array.getElem?_eq_none]
    omega

lemma conditions_insertDispatcher (g : Graph B C) (es : List Nat) (n : Nat) :
    (g.insertDispatcher es).2.conditions n = g.conditions n := by
  rcases exits_insertDispatcher_cases g es n with ⟨_, h⟩ | ⟨rfl, h⟩ | ⟨hn, h⟩
  · rw [Graph.conditions, Graph.conditions, tests, tests, h, List.filterMap_map]
    have htest : Exit.test ∘ g.reroute es = Exit.test := funext (reroute_test g es)
    rw [htest]
  · rw [conditions_of_size_le le_rfl, Graph.conditions, tests, h, List.filterMap_filterMap,
      List.filterMap_eq_nil_iff]
    intro e he
    rcases (of_mem_dispatcherExits he).2 with ht | ht <;> rw [ht] <;> rfl
  · rw [conditions_of_size_le hn.le, Graph.conditions, tests, h]
    rfl

lemma Ended.insertDispatcher (h : g.Ended) {e : Nat} (he : e ∈ es) :
    (g.insertDispatcher es).2.Ended := by
  intro n
  rcases exits_insertDispatcher_cases g es n with ⟨_, h'⟩ | ⟨_, h'⟩ | ⟨_, h'⟩ <;> rw [h']
  · rcases h n with hnil | hc
    · exact .inl (by rw [hnil]; rfl)
    · exact .inr (hc.map (reroute_test g es))
  · exact .inr (complete_dispatcherExits he)
  · exact .inl rfl

/-- Dispatchers have no bodies, and ask no conditions of the program. -/
lemma insertDispatchers_bare (g : Graph B C) (log : List (List Nat)) :
    (∀ n, (g.insertDispatchers log).body? n = g.body? n) ∧
      ∀ n, (g.insertDispatchers log).conditions n = g.conditions n := by
  induction log generalizing g with
  | nil => exact ⟨fun _ => rfl, fun _ => rfl⟩
  | cons es log ih =>
    obtain ⟨hbody, hconditions⟩ := ih (g.insertDispatcher es).2
    exact ⟨fun n => (hbody n).trans (body?_insertDispatcher g es n),
      fun n => (hconditions n).trans (conditions_insertDispatcher g es n)⟩

lemma Ended.insertDispatchers (h : g.Ended) (hlog : ∀ es ∈ log, 2 ≤ es.length) :
    (g.insertDispatchers log).Ended := by
  induction log generalizing g with
  | nil => exact h
  | cons es log ih =>
    rw [List.forall_mem_cons] at hlog
    obtain ⟨e, he⟩ := List.exists_mem_of_length_pos (Nat.lt_of_lt_of_le Nat.zero_lt_two hlog.1)
    exact ih (h.insertDispatcher he) hlog.2

/-- The entries of the dispatchers behind some number of blocks. -/
def entriesAt (count : Nat) (log : List (List Nat)) (n : Nat) : Option (List Nat) :=
  if n < count then none else log[n - count]?

lemma entriesAt_append {count : Nat} {log log' : List (List Nat)}
    (h : entriesAt count log n = some es) : entriesAt count (log ++ log') n = some es := by
  unfold entriesAt at h ⊢
  split
  · next hn => rw [if_pos hn] at h; cases h
  · next hn =>
    rw [if_neg hn] at h
    rw [List.getElem?_append_left (List.getElem?_eq_some_iff.1 h).1, h]

/-- A new dispatcher gets its exits, and the others keep theirs. -/
lemma Routed.insertDispatcher {entries entries' : Nat → Option (List Nat)} (hg : g.InRange)
    (h : g.Routed entries) (hlt : ∀ e ∈ es, e < g.blocks.size)
    (hnone : ∀ e ∈ es, entries' e = none) (hnew : entries' g.blocks.size = some es)
    (hold : ∀ n, n < g.blocks.size → entries' n = entries n)
    (hkeep : ∀ n es', entries n = some es' → entries' n = some es') :
    (g.insertDispatcher es).2.Routed entries' := by
  refine ⟨fun n e he es' hes' => ?_, fun n e he id ht => ?_⟩
  · rcases exits_insertDispatcher_cases g es n with ⟨_, hn⟩ | ⟨_, hn⟩ | ⟨_, hn⟩ <;> rw [hn] at he
    · obtain ⟨e₀, he₀, rfl⟩ := List.mem_map.1 he
      by_cases hmem : e₀.target ∈ es
      · rw [reroute_of_mem hmem (hlt _ hmem)] at hes' ⊢
        obtain rfl : es = es' := Option.some.inj (hnew.symm.trans hes')
        exact ⟨e₀.target, hmem, rfl⟩
      · rw [reroute_of_not_mem hmem] at hes' ⊢
        exact h.exit n e₀ he₀ es' ((hold _ (hg.target (edge_of_mem he₀))).symm.trans hes')
    · rw [hnone _ (of_mem_dispatcherExits he).1] at hes'
      cases hes'
    · cases he
  · rcases exits_insertDispatcher_cases g es n with ⟨_, hn⟩ | ⟨rfl, hn⟩ | ⟨_, hn⟩ <;> rw [hn] at he
    · obtain ⟨e₀, he₀, rfl⟩ := List.mem_map.1 he
      rw [reroute_test] at ht
      obtain ⟨es', hes', hid⟩ := h.test n e₀ he₀ id ht
      exact ⟨es', hkeep n es' hes', hid⟩
    · obtain ⟨hmem, ht' | ht'⟩ := of_mem_dispatcherExits he <;> rw [ht'] at ht <;> cases ht
      exact ⟨es, hnew, hmem⟩
    · cases he

/-- Dispatchers get their exits. -/
lemma routed_insertDispatchers (hg : g.InRange) (hplain : g.Plain)
    (hlog : ∀ es ∈ log, ∀ e ∈ es, e < g.blocks.size) :
    (g.insertDispatchers log).InRange ∧
      (g.insertDispatchers log).Routed (entriesAt g.blocks.size log) := by
  induction log using List.reverseRecOn with
  | nil =>
    refine ⟨hg, ⟨fun n e he es hes => ?_, fun n e he id ht => absurd ht ((hplain n e he).2 id)⟩⟩
    rw [entriesAt, if_pos (hg.target (edge_of_mem he))] at hes
    cases hes
  | append_singleton log es ih =>
    obtain ⟨hrange, hroute⟩ := ih fun es' hes' => hlog es' (List.mem_append_left _ hes')
    have hes := hlog es (List.mem_append_right _ List.mem_cons_self)
    have hsize := size_insertDispatchers g log
    have hlt : ∀ e ∈ es, e < (g.insertDispatchers log).blocks.size := fun e he => by
      have := hes e he
      omega
    rw [insertDispatchers_append]
    refine ⟨inRange_insertDispatcher hrange hlt, hroute.insertDispatcher hrange hlt
      (fun e he => if_pos (hes e he)) ?_ (fun n hn => ?_) fun _ _ h => entriesAt_append h⟩
    · -- the new dispatcher is the last block
      rw [entriesAt, if_neg (by omega), hsize, Nat.add_sub_cancel_left]
      simp
    · unfold entriesAt
      split
      · rfl
      · rw [List.getElem?_append_left (by omega)]

/-- The graph that is laid out has the bodies and conditions of the graph that it is made from, and
its dispatchers get their exits. -/
lemma grown_prepared (hg : g.InRange) (hplain : g.Plain) : g.Grown g.prepared ∧
    ∃ log, Dispatched g.prune.withFreshEntry log g.prepared ∧
      g.prepared.Routed (entriesAt g.prune.withFreshEntry.blocks.size log) := by
  have htrim := trimmed_withFreshEntry hg hplain
  obtain ⟨log, hsplitting, _, hdisp⟩ := htrim.toRooted.dispatched
  have heq : g.prepared = g.prune.withFreshEntry.insertDispatchers log := hsplitting.eq
  have hfresh : g.prune.Grown g.prune.withFreshEntry := by
    rcases withFreshEntry_eq g.prune with ⟨hsame, _⟩ | hsame <;> rw [hsame]
    · exact .refl _
    · exact grown_prepend (inRange_prune hg)
  have hsplit : g.prune.withFreshEntry.Grown g.prepared := by
    obtain ⟨hbody, hconditions⟩ := insertDispatchers_bare g.prune.withFreshEntry log
    refine ⟨hdisp.size.ge.trans' (Nat.le_add_right _ _), ?_, ?_, fun n hn => ?_, fun he => ?_⟩
    · rwa [heq]
    · rw [heq]
      exact fun n _ => hconditions n
    · rw [← htrim.leads_split hn]
      show g.prepared.Leads g.prune.withFreshEntry.splitIrreducible.entry n ↔ _
      rw [hdisp.entry]
      rfl
    · rw [heq]
      exact he.insertDispatchers fun es hes => by
        obtain ⟨i, hi⟩ := List.mem_iff_getElem?.1 hes
        exact (hdisp.dispatcher i es hi).1
  refine ⟨((grown_prune hg).trans hfresh).trans hsplit, log, hdisp, ?_⟩
  rw [heq]
  refine (routed_insertDispatchers htrim.toInRange htrim.plain fun es hes e he => ?_).2
  exact Leads.lt htrim.toInRange htrim.entry (hdisp.entries e (List.mem_flatten_of_mem hes he)).2

/-! ### What is placed for the entry -/

/-- What is listed of the pieces that are put into a shape. -/
lemma Inventory.filterMap {d : Dominance} {roots : Nat → Prop} {ps : List (Piece B C)}
    {st st' : Placing} {labels blocks : List Nat} (h : g.Inventory d roots [] ps st st' labels blocks)
    {α : Type} (f : Piece B C → Option α) : (ps.filterMap f).Perm
      (labels.filterMap (fun k => f (.label k)) ++
        blocks.flatMap fun n => (g.piecesOf n).filterMap f) := by
  have := h.pieces.filterMap f
  rwa [List.nil_append, List.filterMap_append, List.filterMap_map, List.filterMap_flatMap] at this

lemma body?_piecesOf (g : Graph B C) (n : Nat) :
    (g.piecesOf n).filterMap Piece.body? = (g.body? n).toList := by
  rw [piecesOf, List.filterMap_append, List.filterMap_map, List.filterMap_map]
  have hbody : (Piece.body? : Piece B C → Option B) ∘ Piece.body = some := rfl
  have htest : (Piece.body? : Piece B C → Option B) ∘ Piece.test = fun _ => none := rfl
  rw [hbody, htest]
  simp

lemma condition?_piecesOf (g : Graph B C) (n : Nat) :
    (g.piecesOf n).filterMap Piece.condition? = g.conditions n := by
  rw [piecesOf, List.filterMap_append, List.filterMap_map, List.filterMap_map]
  have hbody : (Piece.condition? : Piece B C → Option C) ∘ Piece.body = fun _ => none := rfl
  have htest : (Piece.condition? : Piece B C → Option C) ∘ Piece.test = Test.condition? := rfl
  rw [hbody, htest, Graph.conditions]
  simp

lemma label?_piecesOf (g : Graph B C) (n : Nat) : (g.piecesOf n).filterMap Piece.label? = [] := by
  rw [piecesOf, List.filterMap_append, List.filterMap_map, List.filterMap_map]
  have hbody : (Piece.label? : Piece B C → Option Nat) ∘ Piece.body = fun _ => none := rfl
  have htest : (Piece.label? : Piece B C → Option Nat) ∘ Piece.test = fun _ => none := rfl
  rw [hbody, htest]
  simp

/-- A reached block without exits has a body that does not go on. -/
lemma Proceeds.exists_body {v : Shape.Visitor B C ε σ} (h : g.Proceeds v n) (hn : g.exits n = [])
    (s : σ) : ∃ b, g.body? n = some b ∧ ¬ ∃ s s', v.body b s = .ok none s' := by
  obtain hc | ⟨_, hret⟩ := h
  · rw [hn] at hc
    cases hc
  · rcases hblk : g.blocks[n]? with _ | ⟨_ | b, es, absorbed⟩
    · exact absurd (by rw [runBody, hblk]; rfl) (hret s s)
    · exact absurd (by rw [runBody, hblk]; rfl) (hret s s)
    · refine ⟨b, by rw [body?, hblk]; rfl, ?_⟩
      rintro ⟨s, s', hb⟩
      exact hret s s' (by rw [runBody, hblk]; exact hb)

/-- Blocks that give nothing can be left out. -/
lemma flatMap_filter {α β : Type} {p : α → Bool} {f : α → List β} {xs : List α}
    (h : ∀ x ∈ xs, p x = false → f x = []) : (xs.filter p).flatMap f = xs.flatMap f := by
  induction xs with
  | nil => rfl
  | cons x xs ih =>
    rw [List.forall_mem_cons] at h
    rw [List.flatMap_cons, ← ih h.2, List.filter_cons]
    split
    · rw [List.flatMap_cons]
    · next hp => rw [h.1 (by simpa using hp), List.nil_append]

section

variable (hval : g.validate = .ok ()) (hplain : g.Plain) {x : Shape B C}
  (hx : g.structurize = .ok x)
include hval hplain hx

/-- The structured form is what is placed for the entry of a graph that is laid out. -/
lemma exists_placed : ∃ d st', g.prepared.Laid g.prepared.reversePostorder ∧
    Sound g.prepared g.prepared.reversePostorder d ∧
      g.prepared.placeTree d g.prepared.blocks.size [] g.prepared.entry
        ⟨0, Array.replicate g.prepared.blocks.size false⟩ = .ok (x, st') := by
  obtain ⟨hrooted, hred⟩ := reducible_prepared (validate_eq_ok hval).1 hplain
  have hlaid : g.prepared.Laid g.prepared.reversePostorder :=
    ⟨hrooted, ordered_reversePostorder hrooted.toInRange, hred⟩
  obtain ⟨d, hd, hs⟩ := hlaid.sound_dominance rfl
  rw [structurize_eq, bind_eq_of_ok hval, bind_eq_of_ok hd] at hx
  obtain ⟨⟨y, st'⟩, hplace, hx⟩ := except_bind_eq_ok.mp hx
  cases hx
  exact ⟨d, st', hlaid, hs, hplace⟩

/-- The bodies and conditions of the structured form are those of the blocks that are reached. -/
lemma structurize_lists (hgrown : g.Grown g.prepared) : ∃ blocks : List Nat, blocks.Nodup ∧
    (∀ n, n ∈ blocks ↔ g.Leads g.entry n) ∧ x.bodies.Perm (blocks.filterMap g.body?) ∧
      x.conditions.Perm (blocks.flatMap g.conditions) ∧ x.labels.Nodup := by
  obtain ⟨hg, hexits⟩ := validate_eq_ok hval
  obtain ⟨d, st', hlaid, hs, hplace⟩ := exists_placed hval hplain hx
  obtain ⟨labels, blocks, h⟩ := placeTree_puts (hgrown.ended hexits) _ _ _ _ _ _ hplace
  have hmem : ∀ n, n ∈ blocks ↔ g.prepared.Leads g.prepared.entry n := by
    intro n
    rw [h.mem, ← hlaid.ordered.mem, ← hlaid.brings_iff hs]
    simp
  refine ⟨blocks.filter (· < g.blocks.size), h.once.filter _, fun n => ?_, ?_, ?_, ?_⟩
  · rw [List.mem_filter, hmem, decide_eq_true_iff]
    constructor
    · rintro ⟨hn, hlt⟩
      exact (hgrown.leads n hlt).1 hn
    · intro hn
      have hlt := Leads.lt hg hg.entry hn
      exact ⟨(hgrown.leads n hlt).2 hn, hlt⟩
  · have hbodies := h.filterMap Piece.body?
    rw [Shape.filterMap_pieces] at hbodies
    refine hbodies.trans (.of_eq ?_)
    rw [List.filterMap_eq_flatMap_toList g.body?, flatMap_filter]
    · simp only [body?_piecesOf, hgrown.body]
      simp [Piece.body?]
    · intro n _ hn
      rw [body?, Array.getElem?_eq_none (by simpa using hn)]
      rfl
  · refine (h.filterMap Piece.condition?).trans (.of_eq ?_)
    rw [flatMap_filter]
    · simp only [condition?_piecesOf]
      have hnone : labels.filterMap (fun k => (Piece.label k : Piece B C).condition?) = [] := by
        simp [Piece.condition?]
      rw [hnone, List.nil_append]
      exact List.flatMap_congr fun n hn => hgrown.conditions n ((hmem n).1 hn)
    · intro n _ hn
      exact conditions_of_size_le (by simpa using hn)
  · refine (h.filterMap Piece.label?).nodup_iff.2 ?_
    have hnone : blocks.flatMap (fun n => (g.prepared.piecesOf n).filterMap Piece.label?) = [] :=
      List.flatMap_eq_nil_iff.2 fun n _ => label?_piecesOf _ n
    rw [hnone, List.append_nil]
    simpa [Piece.label?] using h.distinct

/-- If blocks without exits return in their bodies, then the structured form is guarded: dispatchers
ask for entries of theirs when the dispatch variable was last set to one. -/
lemma structurize_guarded (hgrown : g.Grown g.prepared)
    (hdisp : Dispatched g.prune.withFreshEntry log g.prepared)
    (hroute : g.prepared.Routed (entriesAt g.prune.withFreshEntry.blocks.size log))
    {v : Shape.Visitor B C ε σ} (hret : g.Returns v) (s : σ) :
    x.Guarded (Asks (entriesAt g.prune.withFreshEntry.blocks.size log))
      (fun b => ∃ s s', v.body b s = .ok none s') (fun _ _ => False) (fun _ => True) none := by
  obtain ⟨hg, hexits⟩ := validate_eq_ok hval
  obtain ⟨d, st', hlaid, hs, hplace⟩ := exists_placed hval hplain hx
  have hprep := prepared_prepared (v := v) hg hplain fun n hn => by
    rcases hexits n with hnil | hc
    · exact .inr ⟨hnil, hret n hn hnil⟩
    · exact .inl hc
  refine placeTree_guarded (P := (· ∈ g.prepared.reversePostorder)) hroute (hgrown.ended hexits)
    (fun n hn hnil => (hprep.proceeds n ((hlaid.ordered.mem n).1 hn)).exists_body hnil s)
    (fun n hn e he => hlaid.mem_of_edge hn (edge_of_mem he))
    (fun n y hy => ((hs.children n y).1 hy).1) _ _ _ _ _ _ hplace hlaid.entry_mem (by simp) _ _ _
    (fun f hf => by cases hf) fun es hes => ?_
  -- the entry is no dispatcher
  have hentry : g.prepared.entry < g.prune.withFreshEntry.blocks.size := by
    rw [hdisp.entry]
    exact (trimmed_withFreshEntry hg hplain).entry
  rw [entriesAt, if_pos hentry] at hes
  cases hes

end

end Graph

end Dynarec.Flow
