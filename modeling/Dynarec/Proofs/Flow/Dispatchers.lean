import Dynarec.Proofs.Flow.Prepare

/-!
# The dispatchers that splitting inserts

Splitting takes up the cycles of a region one after the other, and then what is left of each without
its entry. What is left of a cycle with several entries has as many blocks as the cycle itself; but
its entries have become targets of the dispatcher alone, so they lie on no cycle any more. So the
recursion ends without a bound, and no block becomes an entry of a second dispatcher.
-/

namespace Dynarec.Flow.Graph

open Relation (ReflTransGen TransGen)

variable {B C : Type} {g g' g₁ : Graph B C} {es : List Nat} {log log' : List (List Nat)} {n : Nat}

/-! ### Several dispatchers -/

/-- Insert dispatchers for lists of blocks, one after the other. -/
def insertDispatchers (g : Graph B C) (log : List (List Nat)) : Graph B C :=
  log.foldl (fun g es => (g.insertDispatcher es).2) g

lemma insertDispatchers_append (g : Graph B C) (log log' : List (List Nat)) :
    g.insertDispatchers (log ++ log') = (g.insertDispatchers log).insertDispatchers log' :=
  List.foldl_append

lemma size_insertDispatchers (g : Graph B C) (log : List (List Nat)) :
    (g.insertDispatchers log).blocks.size = g.blocks.size + log.length := by
  induction log generalizing g with
  | nil => rfl
  | cons es log ih =>
    show ((g.insertDispatcher es).2.insertDispatchers log).blocks.size = _
    rw [ih, size_insertDispatcher, List.length_cons]
    omega

/-- A block of which no exit leads to an entry of a dispatcher stays as it is. -/
lemma block_insertDispatcher (hn : n < g.blocks.size) (h : ∀ e ∈ g.exits n, e.target ∉ es) :
    (g.insertDispatcher es).2.blocks[n]? = g.blocks[n]? := by
  have hblk : g.blocks[n]? = some g.blocks[n] := Array.getElem?_eq_getElem hn
  simp only [insertDispatcher, Array.getElem?_push, Array.size_map, hn.ne, if_false,
    Array.getElem?_map, hblk, Option.map_some]
  have hexits : g.blocks[n].exits.map (g.reroute es) = g.blocks[n].exits := by
    have hsame : ∀ e ∈ g.blocks[n].exits, g.reroute es e = e := by
      intro e he
      refine reroute_of_not_mem (h e ?_)
      rwa [exits, hblk]
    rw [List.map_congr_left hsame, List.map_id']
  exact congrArg some (congrArg (fun x => { g.blocks[n] with exits := x }) hexits)

lemma block_insertDispatchers (hn : n < g.blocks.size)
    (h : ∀ e ∈ g.exits n, e.target ∉ log.flatten) :
    (g.insertDispatchers log).blocks[n]? = g.blocks[n]? := by
  induction log generalizing g with
  | nil => rfl
  | cons es log ih =>
    rw [List.flatten_cons] at h
    have hblk : (g.insertDispatcher es).2.blocks[n]? = g.blocks[n]? :=
      block_insertDispatcher hn fun e he hes => h e he (List.mem_append_left _ hes)
    show ((g.insertDispatcher es).2.insertDispatchers log).blocks[n]? = _
    rw [ih, hblk]
    · rw [size_insertDispatcher]
      exact Nat.lt_succ_of_lt hn
    · rw [exits, hblk]
      exact fun e he hes => h e he (List.mem_append_right _ hes)

lemma targets_dispatcherExits (es : List Nat) :
    (dispatcherExits es : List (Exit C)).map (·.target) = es := by
  have h := targets_dispatcher (Graph.empty : Graph Unit C) es
  rwa [targets, exits_dispatcher] at h

/-- The dispatchers that have been inserted, if no block is an entry of two of them. -/
lemma dispatcher_insertDispatchers (h : log.flatten.Nodup) {i : Nat} (hi : log[i]? = some es) :
    (g.insertDispatchers log).blocks[g.blocks.size + i]? = some ⟨none, dispatcherExits es, false⟩ := by
  induction log generalizing g i with
  | nil => cases hi
  | cons es' log ih =>
    rw [List.flatten_cons, List.nodup_append] at h
    obtain ⟨-, hrest, hdisj⟩ := h
    show ((g.insertDispatcher es').2.insertDispatchers log).blocks[g.blocks.size + i]? = _
    cases i with
    | zero =>
      obtain rfl : es' = es := by simpa using hi
      rw [Nat.add_zero, block_insertDispatchers]
      · exact block_dispatcher g es'
      · rw [size_insertDispatcher]
        exact Nat.lt_succ_self _
      · rw [exits_dispatcher]
        intro e he hlater
        have hmem : e.target ∈ (dispatcherExits es' : List (Exit C)).map (·.target) :=
          List.mem_map_of_mem he
        rw [targets_dispatcherExits] at hmem
        exact hdisj _ hmem _ hlater rfl
    | succ i =>
      have h := ih (g := (g.insertDispatcher es').2) hrest (i := i) (by simpa using hi)
      rwa [size_insertDispatcher, Nat.add_right_comm] at h

/-- Later dispatchers leave the exits to a block alone that is none of their entries. -/
lemma edge_insertDispatchers (hlt : ∀ es ∈ log, ∀ e ∈ es, e < g.blocks.size) {u w : Nat}
    (hw : w < g.blocks.size) (h : w ∉ log.flatten) :
    (g.insertDispatchers log).Edge u w ↔ g.Edge u w := by
  induction log generalizing g with
  | nil => rfl
  | cons es log ih =>
    rw [List.flatten_cons, List.mem_append, not_or] at h
    rw [List.forall_mem_cons] at hlt
    have hsize := size_insertDispatcher g es
    show ((g.insertDispatcher es).2.insertDispatchers log).Edge u w ↔ _
    rw [ih (fun es hes e he => ?_) (by omega) h.2, edge_insertDispatcher hlt.1]
    · simp only [h.1, not_false_eq_true, true_and, hw.ne, false_and, or_false, and_false]
      exact ⟨fun he => he.2, fun he => ⟨he.lt, he⟩⟩
    · have := hlt.2 es hes e he
      omega

/-- Only its dispatcher leads to an entry of a dispatcher. -/
lemma eq_dispatcher_of_edge (hlt : ∀ es ∈ log, ∀ e ∈ es, e < g.blocks.size)
    (hnodup : log.flatten.Nodup) {i u w : Nat} (hi : log[i]? = some es) (hw : w ∈ es)
    (he : (g.insertDispatchers log).Edge u w) : u = g.blocks.size + i := by
  induction log generalizing g i with
  | nil => cases hi
  | cons es' log ih =>
    rw [List.flatten_cons, List.nodup_append] at hnodup
    obtain ⟨-, hrest, hdisj⟩ := hnodup
    rw [List.forall_mem_cons] at hlt
    have hsize := size_insertDispatcher g es'
    have hlt' : ∀ es ∈ log, ∀ e ∈ es, e < (g.insertDispatcher es').2.blocks.size := by
      intro es hes e he
      have := hlt.2 es hes e he
      omega
    replace he : ((g.insertDispatcher es').2.insertDispatchers log).Edge u w := he
    cases i with
    | zero =>
      obtain rfl : es' = es := by simpa using hi
      have hwlt := hlt.1 w hw
      rw [edge_insertDispatchers hlt' (by omega) fun hw' => hdisj w hw w hw' rfl,
        edge_insertDispatcher hlt.1] at he
      rcases he with ⟨_, ⟨hw', _⟩ | ⟨hw', _⟩⟩ | ⟨hu, _⟩
      · exact absurd hw hw'
      · exact absurd hw' hwlt.ne
      · exact hu
    | succ i =>
      have h := ih hlt' hrest (by simpa using hi) he
      omega

/-! ### Splitting without a bound -/

/-- The recursion of splitting, for some components of a region. It gives the entries of the
dispatchers that are inserted on the way, in order, and the graph in the end. -/
inductive Splitting : List (List Nat) → Graph B C → List (List Nat) → Graph B C → Prop where
  | done (g : Graph B C) : Splitting [] g [] g
  | skip {c : List Nat} {cs : List (List Nat)} {g g' : Graph B C} {log : List (List Nat)} :
    g.isCyclic c = false → Splitting cs g log g' → Splitting (c :: cs) g log g'
  | single {c : List Nat} {cs : List (List Nat)} {a : Nat} {g g₁ g' : Graph B C}
      {log log' : List (List Nat)} :
    g.isCyclic c = true → g.entriesOf (regionOf g.blocks.size c) = [a] →
    Splitting (g.components ((regionOf g.blocks.size c).setIfInBounds a false)) g log g₁ →
    Splitting cs g₁ log' g' → Splitting (c :: cs) g (log ++ log') g'
  | several {c : List Nat} {cs : List (List Nat)} {es : List Nat} {g g₁ g' : Graph B C}
      {log log' : List (List Nat)} :
    g.isCyclic c = true → g.entriesOf (regionOf g.blocks.size c) = es → es.length ≠ 1 →
    Splitting ((g.insertDispatcher es).2.components
      ((regionOf g.blocks.size c).setIfInBounds g.blocks.size false)) (g.insertDispatcher es).2 log
      g₁ →
    Splitting cs g₁ log' g' → Splitting (c :: cs) g (es :: log ++ log') g'

/-- Splitting does nothing but insert its dispatchers. -/
lemma Splitting.eq {cs : List (List Nat)} (h : Splitting cs g log g') :
    g' = g.insertDispatchers log := by
  induction h with
  | done g => rfl
  | skip _ _ ih => exact ih
  | single _ _ _ _ ih ih' => rw [insertDispatchers_append, ← ih, ← ih']
  | several _ _ _ _ _ ih ih' =>
    rw [insertDispatchers_append]
    show _ = (insertDispatchers (insertDispatcher _ _).2 _).insertDispatchers _
    rw [← ih, ← ih']

/-- The recursion goes one way only. -/
lemma Splitting.unique {cs : List (List Nat)} (h : Splitting cs g log g')
    (h' : Splitting cs g log' g₁) : log' = log := by
  induction h generalizing log' g₁ with
  | done g =>
    cases h'
    rfl
  | skip hcyc _ ih =>
    cases h' with
    | skip _ hrest => exact ih hrest
    | single hcyc' => rw [hcyc] at hcyc'; cases hcyc'
    | several hcyc' => rw [hcyc] at hcyc'; cases hcyc'
  | single hcyc hE hin _ ih ih' =>
    cases h' with
    | skip hcyc' => rw [hcyc] at hcyc'; cases hcyc'
    | single _ hE' hin' hrest =>
      obtain rfl : _ = _ := List.singleton_inj.1 (hE.symm.trans hE')
      obtain rfl := ih hin'
      rw [hin'.eq, ← hin.eq] at hrest
      rw [ih' hrest]
    | several _ hE' hne => exact absurd (by rw [← hE', hE]; rfl) hne
  | several hcyc hE hne hin _ ih ih' =>
    cases h' with
    | skip hcyc' => rw [hcyc] at hcyc'; cases hcyc'
    | single _ hE' => exact absurd (by rw [← hE, hE']; rfl) hne
    | several _ hE' _ hin' hrest =>
      obtain rfl := hE.symm.trans hE'
      obtain rfl := ih hin'
      rw [hin'.eq, ← hin.eq] at hrest
      rw [ih' hrest]

/-! ### Entries -/

/-- Entries of dispatchers with a property: several for each dispatcher, and none for two of them. -/
structure Logged (P : Nat → Prop) (log : List (List Nat)) : Prop where
  several : ∀ es ∈ log, 2 ≤ es.length
  nodup : log.flatten.Nodup
  mem : ∀ x ∈ log.flatten, P x

namespace Logged

variable {P Q : Nat → Prop}

lemma nil : Logged P [] := ⟨by simp, by simp, by simp⟩

lemma mono (h : Logged P log) (hPQ : ∀ x, P x → Q x) : Logged Q log :=
  ⟨h.several, h.nodup, fun x hx => hPQ x (h.mem x hx)⟩

lemma append (h : Logged P log) (h' : Logged Q log') (hapart : ∀ x, P x → ¬ Q x) :
    Logged (fun x => P x ∨ Q x) (log ++ log') where
  several es hes := by
    rcases List.mem_append.1 hes with hes | hes
    · exact h.several es hes
    · exact h'.several es hes
  nodup := by
    rw [List.flatten_append, List.nodup_append]
    refine ⟨h.nodup, h'.nodup, ?_⟩
    rintro x hx _ hx' rfl
    exact hapart x (h.mem x hx) (h'.mem x hx')
  mem x hx := by
    rw [List.flatten_append, List.mem_append] at hx
    exact hx.imp (h.mem x) (h'.mem x)

/-- The entries of one dispatcher. -/
lemma singleton (hnodup : es.Nodup) (hlen : 2 ≤ es.length) : Logged (· ∈ es) [es] :=
  ⟨by simpa using hlen, by simpa using hnodup, by simp⟩

/-- There are at least twice as many entries as dispatchers. -/
lemma two_mul_length_le (h : Logged P log) : 2 * log.length ≤ log.flatten.length := by
  have hsum : ∀ log : List (List Nat), (∀ es ∈ log, 2 ≤ es.length) →
      2 * log.length ≤ log.flatten.length := by
    intro log
    induction log with
    | nil => simp
    | cons es log ih =>
      intro h
      rw [List.forall_mem_cons] at h
      have := ih h.2
      rw [List.flatten_cons, List.length_append, List.length_cons]
      omega
  exact hsum log h.several

end Logged

lemma nodup_entriesOf (g : Graph B C) (region : Array Bool) : (g.entriesOf region).Nodup :=
  List.nodup_range.filter _

/-- A way of splitting regions that goes the way of the recursion, for all regions with few blocks on
cycles. Only blocks on cycles become entries of dispatchers. -/
def Logs (split : Array Bool → Graph B C → Graph B C) (fuel : Nat) : Prop :=
  ∀ (region : Array Bool) (g : Graph B C), g.Rooted → g.Bounded region fuel →
    ∃ log, Splitting (g.components region) g log (split region g) ∧
      Logged (fun x => TransGen (g.EdgeIn region) x x) log

/-- The dispatchers of one component, if it is a cycle. -/
lemma splitComponent_logged {split : Array Bool → Graph B C → Graph B C} {fuel : Nat}
    (hlogs : Logs split fuel) {c : List Nat} (h : g.Splittable fuel c) :
    ∃ log, Logged (fun x => x ∈ c ∧ g.isCyclic c = true) log ∧ ∀ {cs log' g'},
      Splitting cs (splitComponent split g c) log' g' → Splitting (c :: cs) g (log ++ log') g' := by
  cases hcyc : g.isCyclic c with
  | false =>
    simp only [splitComponent, hcyc, Bool.not_false, if_true]
    exact ⟨[], .nil, fun hrest => .skip hcyc hrest⟩
  | true =>
    by_cases hE : ∃ a, g.entriesOf (regionOf g.blocks.size c) = [a]
    · obtain ⟨a, hE⟩ := hE
      obtain ⟨log, hsplitting, hlogged⟩ := hlogs _ g h.toRooted (h.bounded_single hcyc hE)
      rw [splitComponent_single hcyc hE]
      refine ⟨log, hlogged.mono fun x hx => ?_, fun hrest => .single hcyc hE hsplitting hrest⟩
      obtain ⟨y, he, _⟩ := TransGen.head'_iff.1 hx
      exact ⟨(h.getD_cut.1 he.1).1, rfl⟩
    · obtain ⟨log, hsplitting, hlogged⟩ :=
        hlogs _ _ (h.rooted_dispatcher hcyc) (h.bounded_several hcyc)
      rw [splitComponent_several hcyc fun a ha => hE ⟨a, ha⟩]
      have hne : (g.entriesOf (regionOf g.blocks.size c)).length ≠ 1 := fun hlen =>
        hE (List.length_eq_one_iff.1 hlen)
      have hpos : 0 < (g.entriesOf (regionOf g.blocks.size c)).length := by
        obtain ⟨e, he⟩ := h.exists_entry hcyc
        exact List.length_pos_of_mem he
      have hentries : Logged (· ∈ g.entriesOf (regionOf g.blocks.size c))
          [g.entriesOf (regionOf g.blocks.size c)] :=
        .singleton (nodup_entriesOf _ _) (by omega)
      have hboth := hentries.append (hlogged.mono fun x hx => h.not_entry_of_cycle hcyc hx)
        fun x hx hx' => hx'.2 hx
      refine ⟨_, hboth.mono fun x hx => ⟨?_, rfl⟩, fun hrest => .several hcyc rfl hne hsplitting hrest⟩
      exact hx.elim (fun hx => ((h.mem_entries hcyc).1 hx).1) And.left

/-- The dispatchers of the components of a region. -/
lemma foldl_splitComponent_logged {split : Array Bool → Graph B C → Graph B C} {fuel : Nat}
    {region : Array Bool} {cs pre post : List (List Nat)} {A : Nat → Prop}
    (hsplit : Splits split fuel) (hlogs : Logs split fuel) (hg : g.Rooted)
    (hcs : g.Parted region cs) (hb : g.Bounded region (fuel + 1)) (heq : cs = pre ++ post)
    (hA : ∀ x, x < g.blocks.size → (A x ↔ ∃ c ∈ pre, x ∈ c)) (h : Carved g A g₁) :
    ∃ log, Splitting post g₁ log (post.foldl (splitComponent split) g₁) ∧
      Logged (fun x => (∃ c ∈ post, x ∈ c) ∧ TransGen (g.EdgeIn region) x x) log := by
  induction post generalizing pre A g₁ with
  | nil => exact ⟨[], .done g₁, .nil⟩
  | cons c post ih =>
    have hsplittable := hcs.splittable heq hA h hg hb
    obtain ⟨A₂, hA₂, h₂⟩ := splitComponent_carved hsplit hsplittable
    obtain ⟨hA', h'⟩ := hcs.carved_next heq hA h hg hA₂ h₂
    obtain ⟨log', hrest, hlogged'⟩ :=
      ih (heq.trans (by rw [List.append_assoc]; rfl) : cs = (pre ++ [c]) ++ post) hA' h'
    obtain ⟨log, hlogged, hnext⟩ := splitComponent_logged hlogs hsplittable
    refine ⟨log ++ log', hnext hrest, (hlogged.append hlogged' ?_).mono ?_⟩
    · -- components have no blocks in common
      rintro x ⟨hx, -⟩ ⟨⟨c', hc', hx'⟩, -⟩
      have hapart := hcs.disjoint
      rw [heq, List.pairwise_append] at hapart
      exact List.rel_of_pairwise_cons hapart.2.1 hc' hx hx'
    · rintro x (⟨hx, hcyc⟩ | ⟨⟨c', hc', hx⟩, hcycle⟩)
      · exact ⟨⟨c, List.mem_cons_self, hx⟩, hcs.cyclic_of_carved heq hA h hcyc x hx⟩
      · exact ⟨⟨c', List.mem_cons_of_mem _ hc', hx⟩, hcycle⟩

/-- Splitting goes the way of the recursion, if the fuel exceeds the number of blocks on cycles. -/
theorem logs_split (fuel : Nat) : Logs (B := B) (C := C) (split fuel) fuel := by
  induction fuel with
  | zero =>
    rintro region g _ ⟨_, K, hK, _⟩
    cases hK
  | succ fuel ih =>
    intro region g hg hb
    obtain ⟨log, hsplitting, hlogged⟩ := foldl_splitComponent_logged (splits_split fuel) ih hg
      (parted_components hg.target region) hb (List.nil_append _).symm (by simp) carved_none
    rw [← split_succ] at hsplitting
    exact ⟨log, hsplitting, hlogged.mono fun x hx => hx.2⟩

/-! ### The graph that is split -/

lemma Bounded.mono {region : Array Bool} {fuel fuel' : Nat} (h : g.Bounded region fuel)
    (hle : fuel ≤ fuel') : g.Bounded region fuel' where
  reached := h.reached
  few := by
    obtain ⟨K, hlen, hK⟩ := h.few
    exact ⟨K, hlen.trans_le hle, hK⟩

/-- Splitting what the entry reaches ends without a bound, and every bound above the number of blocks
gives the same graph. -/
lemma Rooted.splitting (h : g.Rooted) :
    ∃ log, Splitting (g.components g.reachable) g log g.splitIrreducible ∧
      (∀ fuel, g.blocks.size < fuel → split fuel g.reachable g = g.splitIrreducible) ∧
      Logged (fun x => x ≠ g.entry ∧ g.Leads g.entry x) log := by
  have hb := bounded_reachable h.toInRange
  obtain ⟨log, hsplitting, hlogged⟩ := logs_split _ g.reachable g h hb
  refine ⟨log, hsplitting, fun fuel hfuel => ?_, hlogged.mono fun x hx => ?_⟩
  · obtain ⟨log', hsplitting', _⟩ := logs_split fuel g.reachable g h (hb.mono hfuel)
    rw [hsplitting'.eq, hsplitting.unique hsplitting']
    exact hsplitting.eq.symm
  · obtain ⟨u, _, he⟩ := TransGen.tail'_iff.1 hx
    refine ⟨?_, (reachable_iff h.toInRange).1 he.2.1⟩
    rintro rfl
    exact h.start u he.2.2

/-- Dispatchers are reached, since their entries are. -/
lemma Rooted.leads_dispatcher (h : g.Rooted)
    (hlogged : Logged (fun x => x ≠ g.entry ∧ g.Leads g.entry x) log)
    (hleads : ∀ x, g.Leads g.entry x → (g.insertDispatchers log).Leads g.entry x) {i : Nat}
    (hi : i < log.length) : (g.insertDispatchers log).Leads g.entry (g.blocks.size + i) := by
  have hlt : ∀ es ∈ log, ∀ e ∈ es, e < g.blocks.size := fun es hes e he =>
    Leads.lt h.toInRange h.entry (hlogged.mem e (List.mem_flatten_of_mem hes he)).2
  have hes := List.getElem_mem hi
  obtain ⟨e, he⟩ : ∃ e, e ∈ log[i] := by
    have := hlogged.several _ hes
    exact List.exists_mem_of_length_pos (by omega)
  obtain ⟨hne, hlead⟩ := hlogged.mem e (List.mem_flatten_of_mem hes he)
  rcases (hleads e hlead).cases_tail with heq | ⟨u, hu, hedge⟩
  · exact absurd heq hne
  · have := eq_dispatcher_of_edge hlt hlogged.nodup (List.getElem?_eq_getElem hi) he hedge
    rwa [this] at hu

/-- There are fewer dispatchers than blocks that are reached. -/
lemma Rooted.length_log_lt (h : g.Rooted)
    (hlogged : Logged (fun x => x ≠ g.entry ∧ g.Leads g.entry x) log) :
    log.length < (List.range g.blocks.size).countP fun x => g.reachable.getD x false := by
  have hmem : ∀ x ∈ g.entry :: log.flatten,
      x ∈ (List.range g.blocks.size).filter fun x => g.reachable.getD x false := by
    intro x hx
    have hlead : g.Leads g.entry x := by
      rcases List.mem_cons.1 hx with rfl | hx
      · exact .refl
      · exact (hlogged.mem x hx).2
    rw [List.mem_filter, List.mem_range]
    exact ⟨Leads.lt h.toInRange h.entry hlead, (reachable_iff h.toInRange).2 hlead⟩
  have hnodup : (g.entry :: log.flatten).Nodup :=
    List.nodup_cons.2 ⟨fun he => (hlogged.mem _ he).1 rfl, hlogged.nodup⟩
  have hle := (hnodup.subperm hmem).length_le
  have := hlogged.two_mul_length_le
  rw [List.length_cons] at hle
  rw [List.countP_eq_length_filter]
  omega

/-- A graph `g'` that has dispatchers behind the blocks of `g`: the log lists the entries of each. -/
structure Dispatched (g : Graph B C) (log : List (List Nat)) (g' : Graph B C) : Prop where
  size : g'.blocks.size = g.blocks.size + log.length
  dispatcher : ∀ i es, log[i]? = some es →
    2 ≤ es.length ∧ g'.blocks[g.blocks.size + i]? = some ⟨none, dispatcherExits es, false⟩
  nodup : log.flatten.Nodup
  entries : ∀ x ∈ log.flatten, x ≠ g.entry ∧ g.Leads g.entry x
  entry : g'.entry = g.entry
  reached : ∀ x, g.Leads g.entry x → g'.Leads g'.entry x
  reachedDispatcher : ∀ i, i < log.length → g'.Leads g'.entry (g.blocks.size + i)
  few : log.length < (List.range g.blocks.size).countP fun x => g.reachable.getD x false

/-- Splitting inserts dispatchers. -/
lemma Rooted.dispatched (h : g.Rooted) :
    ∃ log, Splitting (g.components g.reachable) g log g.splitIrreducible ∧
      (∀ fuel, g.blocks.size < fuel → split fuel g.reachable g = g.splitIrreducible) ∧
      Dispatched g log g.splitIrreducible := by
  obtain ⟨A, _, hcarved⟩ := h.carved
  obtain ⟨log, hsplitting, hfuel, hlogged⟩ := h.splitting
  have hleads : ∀ x, g.Leads g.entry x → g.splitIrreducible.Leads g.entry x := fun x =>
    hcarved.leads_of_leads
  have heq := hsplitting.eq
  refine ⟨log, hsplitting, hfuel, ?_, fun i es hi => ⟨hlogged.several es (List.mem_of_getElem? hi),
    ?_⟩, hlogged.nodup, hlogged.mem, hcarved.entry, ?_, ?_, h.length_log_lt hlogged⟩
  · rw [heq, size_insertDispatchers]
  · rw [heq]
    exact dispatcher_insertDispatchers hlogged.nodup hi
  · rw [hcarved.entry]
    exact hleads
  · rw [hcarved.entry]
    rw [heq] at hleads ⊢
    exact fun i => h.leads_dispatcher hlogged hleads

/-- Blocks that are not reached do not matter. -/
lemma Dispatched.of_prune (hg : g.InRange) (h : Dispatched g.prune log g') : Dispatched g log g' := by
  have hsize := size_prune g
  have hreach : ∀ x, g.prune.reachable.getD x false = g.reachable.getD x false := by
    intro x
    rw [Bool.eq_iff_iff, reachable_iff (inRange_prune hg), reachable_iff hg]
    exact ⟨leads_of_prune hg, leads_prune hg⟩
  refine ⟨hsize ▸ h.size, fun i es hi => ?_, h.nodup, fun x hx => ?_, h.entry,
    fun x hx => h.reached x (leads_prune hg hx), fun i hi => ?_, ?_⟩
  · rw [← hsize]
    exact h.dispatcher i es hi
  · exact ⟨(h.entries x hx).1, leads_of_prune hg (h.entries x hx).2⟩
  · rw [← hsize]
    exact h.reachedDispatcher i hi
  · have hfew := h.few
    simp only [hreach, hsize] at hfew
    exact hfew

/-- Splitting the blocks that the entry reaches ends, if none of them leads to the entry: the
recursion without a bound inserts some dispatchers, and a bound above the number of blocks never cuts
it short. Every block that was reached still is, and so is every dispatcher. No block is an entry of
two dispatchers, so there are fewer of them than blocks that are reached. -/
theorem split_terminates (hg : g.InRange) (hstart : ∀ u, g.Leads g.entry u → ¬ g.Edge u g.entry) :
    ∃ log, Splitting (g.prune.components g.prune.reachable) g.prune log g.prune.splitIrreducible ∧
      (∀ fuel, g.blocks.size < fuel →
        split fuel g.prune.reachable g.prune = g.prune.splitIrreducible) ∧
      Dispatched g log g.prune.splitIrreducible := by
  have hroot : g.prune.Rooted := ⟨inRange_prune hg, fun u he =>
    hstart u ((edge_prune hg).1 he).1 ((edge_prune hg).1 he).2⟩
  obtain ⟨log, hsplitting, hfuel, h⟩ := hroot.dispatched
  rw [size_prune] at hfuel
  exact ⟨log, hsplitting, hfuel, h.of_prune hg⟩

/-- Two ways into a cycle, from each of which another cycle is entered elsewhere. -/
def twofold : Graph Unit Unit where
  blocks := #[⟨some (), [⟨some (.cond ()), 1, none⟩, ⟨none, 2, none⟩], false⟩,
    ⟨some (), [⟨none, 3, none⟩], false⟩, ⟨some (), [⟨none, 4, none⟩], false⟩,
    ⟨some (), [⟨some (.cond ()), 4, none⟩, ⟨none, 2, none⟩], false⟩,
    ⟨some (), [⟨some (.cond ()), 3, none⟩, ⟨none, 1, none⟩], false⟩]
  entry := 0

/-- What is left of the outer cycle has as many blocks as before, and gets a dispatcher of its own. -/
theorem split_terminates_twofold :
    (twofold.InRange ∧ ∀ u, twofold.Leads 0 u → ¬ twofold.Edge u 0) ∧
      ∃ es es', Splitting (twofold.prune.components twofold.prune.reachable) twofold.prune [es, es']
          twofold.prune.splitIrreducible ∧ (es ++ es').Nodup ∧
        ∀ fuel, 5 < fuel →
          split fuel twofold.prune.reachable twofold.prune = twofold.prune.splitIrreducible := by
  have hto : ∀ u < 5, ∀ w ∈ twofold.targets u, 0 < w ∧ w < 5 := by decide
  have hg : twofold.InRange := ⟨by decide, fun {u w} he => (hto u he.lt w he).2⟩
  have hstart : ∀ u, twofold.Leads 0 u → ¬ twofold.Edge u 0 := fun u _ he =>
    (lt_irrefl 0) (hto u he.lt 0 he).1
  refine ⟨⟨hg, hstart⟩, ?_⟩
  obtain ⟨log, hsplitting, hfuel, h⟩ := split_terminates hg hstart
  have hseven : twofold.prune.splitIrreducible.blocks.size = 7 := by decide +kernel
  have hlen : log.length = 2 := by
    have hsize : 7 = 5 + log.length := hseven.symm.trans h.size
    omega
  obtain ⟨es, es', rfl⟩ := List.length_eq_two.1 hlen
  exact ⟨es, es', hsplitting, by simpa using h.nodup, hfuel⟩

end Dynarec.Flow.Graph
