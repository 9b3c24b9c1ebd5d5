import Dynarec.Proofs.Flow.Layout
import Dynarec.Proofs.Shape.Inventory

/-!
# What is placed

Placing a block puts into the shape the pieces of the blocks that it brings along, each of them once:
the merges among the blocks that it immediately dominates, and the targets of its exits that are
neither before it nor merges, and what these bring along in turn. In a graph that is laid out these
are the blocks that it dominates. Labels are new whenever a construct is opened.
-/

namespace Dynarec.Flow.Graph

open Relation (ReflTransGen)

variable {B C : Type} {g : Graph B C} {d : Dominance} {n : Nat}

/-- The tests of the exits of a block. -/
def tests (g : Graph B C) (n : Nat) : List (Test C) := (g.exits n).filterMap Exit.test

/-- What a block alone puts into a shape: its body and the tests of its exits. -/
def piecesOf (g : Graph B C) (n : Nat) : List (Piece B C) :=
  ((g.body? n).toList.map .body) ++ (g.tests n).map .test

/-- The blocks that are placed on behalf of a block. -/
def Brings (g : Graph B C) (d : Dominance) (n c : Nat) : Prop :=
  (c ∈ d.children.getD n [] ∧ d.merge.getD c false = true) ∨ g.Edge n c ∧ Stays d n c

/-- Some pieces have been put into a shape from one state of placing to another: new labels, other
pieces, and the pieces of blocks that had not been placed, which are the ones that certain blocks
bring along. -/
structure Inventory (g : Graph B C) (d : Dominance) (roots : Nat → Prop)
    (own pieces : List (Piece B C)) (st st' : Placing) (labels blocks : List Nat) : Prop where
  pieces : pieces.Perm (labels.map .label ++ (own ++ blocks.flatMap g.piecesOf))
  distinct : labels.Nodup
  taken : ∀ k ∈ labels, st.nextLabel ≤ k ∧ k < st'.nextLabel
  le : st.nextLabel ≤ st'.nextLabel
  once : blocks.Nodup
  fresh : ∀ n ∈ blocks, st.placed.getD n true = false
  left : ∀ n, st'.placed.getD n true = false → st.placed.getD n true = false ∧ n ∉ blocks
  mem : ∀ n, n ∈ blocks ↔ ∃ c, roots c ∧ ReflTransGen (g.Brings d) c n

/-- Some labels and blocks are the ones of the pieces put into a shape. -/
def Puts (g : Graph B C) (d : Dominance) (roots : Nat → Prop) (own pieces : List (Piece B C))
    (st st' : Placing) : Prop :=
  ∃ labels blocks, g.Inventory d roots own pieces st st' labels blocks

namespace Puts

variable {roots roots' : Nat → Prop} {own own' ps ps' : List (Piece B C)} {st st₁ st' : Placing}

/-- Nothing is put into the shape for a jump. -/
lemma none (h : ∀ c, ¬ roots c) : g.Puts d roots [] [] st st :=
  ⟨[], [], .refl _, .nil, by simp, le_rfl, .nil, by simp, fun _ h => ⟨h, by simp⟩, by simp [h]⟩

/-- The order of pieces does not matter. -/
lemma congr (h : g.Puts d roots own ps st st') (hroots : ∀ c, roots' c ↔ roots c)
    (hps : ps'.Perm ps) (hown : own.Perm own') : g.Puts d roots' own' ps' st st' := by
  obtain ⟨labels, blocks, h⟩ := h
  refine ⟨labels, blocks, hps.trans (h.pieces.trans ((hown.append_right _).append_left _)),
    h.distinct, h.taken, h.le, h.once, h.fresh, h.left, fun n => ?_⟩
  simp only [h.mem, hroots]

/-- Pieces that are no block's are put into the shape. -/
lemma add (h : g.Puts d roots own ps st st') (more : List (Piece B C)) :
    g.Puts d roots (more ++ own) (more ++ ps) st st' := by
  obtain ⟨labels, blocks, h⟩ := h
  refine ⟨labels, blocks, ?_, h.distinct, h.taken, h.le, h.once, h.fresh, h.left, h.mem⟩
  rw [List.append_assoc]
  exact (h.pieces.append_left more).trans (List.perm_append_comm_assoc ..)

lemma interchange {α : Type} (as bs cs ds : List α) :
    ((as ++ bs) ++ (cs ++ ds)).Perm ((as ++ cs) ++ (bs ++ ds)) := by
  rw [List.append_assoc, List.append_assoc]
  exact (List.perm_append_comm_assoc ..).append_left as

/-- More pieces are put into the shape after the first ones. -/
lemma append (h : g.Puts d roots own ps st st₁) (h' : g.Puts d roots' own' ps' st₁ st') :
    g.Puts d (fun c => roots c ∨ roots' c) (own ++ own') (ps ++ ps') st st' := by
  obtain ⟨labels, blocks, h⟩ := h
  obtain ⟨labels', blocks', h'⟩ := h'
  exact ⟨labels ++ labels', blocks ++ blocks',
    { pieces := by
        rw [List.map_append, List.flatMap_append]
        refine (h.pieces.append h'.pieces).trans ((interchange ..).trans ?_)
        exact (interchange ..).append_left _
      distinct := by
        refine List.nodup_append.2 ⟨h.distinct, h'.distinct, ?_⟩
        rintro k hk _ hk' rfl
        exact absurd (h.taken k hk).2 (Nat.not_lt_of_le (h'.taken k hk').1)
      taken := fun k hk => by
        rcases List.mem_append.1 hk with hk | hk
        · exact ⟨(h.taken k hk).1, (h.taken k hk).2.trans_le h'.le⟩
        · exact ⟨h.le.trans (h'.taken k hk).1, (h'.taken k hk).2⟩
      le := h.le.trans h'.le
      once := by
        -- what is placed later had not been placed before
        refine List.nodup_append.2 ⟨h.once, h'.once, ?_⟩
        rintro n hn _ hn' rfl
        exact (h.left n (h'.fresh n hn')).2 hn
      fresh := fun n hn => by
        rcases List.mem_append.1 hn with hn | hn
        · exact h.fresh n hn
        · exact (h.left n (h'.fresh n hn)).1
      left := fun n hn => by
        obtain ⟨hn₁, hn'⟩ := h'.left n hn
        obtain ⟨hst, hn⟩ := h.left n hn₁
        exact ⟨hst, fun hmem => (List.mem_append.1 hmem).elim hn hn'⟩
      mem := fun n => by
        simp only [List.mem_append, h.mem, h'.mem, or_and_right, exists_or] }⟩

/-- A construct takes a new label. -/
lemma label (h : g.Puts d roots own ps { st with nextLabel := st.nextLabel + 1 } st') :
    g.Puts d roots own (.label st.nextLabel :: ps) st st' := by
  obtain ⟨labels, blocks, h⟩ := h
  have hle : st.nextLabel + 1 ≤ st'.nextLabel := h.le
  refine ⟨st.nextLabel :: labels, blocks, h.pieces.cons _, ?_, ?_, Nat.le_of_succ_le hle, h.once,
    h.fresh, h.left, h.mem⟩
  · exact List.nodup_cons.2 ⟨fun hk => absurd (h.taken _ hk).1 (Nat.not_succ_le_self _), h.distinct⟩
  · intro k hk
    rcases List.mem_cons.1 hk with rfl | hk
    · exact ⟨le_rfl, hle⟩
    · exact ⟨Nat.le_of_succ_le (h.taken k hk).1, (h.taken k hk).2⟩

/-- A block that is placed with what it brings along. -/
lemma block (hn : st.placed.getD n true = false)
    (h : g.Puts d (g.Brings d n) (g.piecesOf n) ps
      { st with placed := st.placed.setIfInBounds n true } st') : g.Puts d (· = n) [] ps st st' := by
  obtain ⟨labels, blocks, h⟩ := h
  have hset : ∀ m, (st.placed.setIfInBounds n true).getD m true = false →
      st.placed.getD m true = false ∧ m ≠ n := by
    intro m hm
    rw [getD_setIfInBounds] at hm
    split at hm
    · cases hm
    · next hne =>
      refine ⟨hm, ?_⟩
      rintro rfl
      exact hne ⟨rfl, (getD_true_eq_false.1 hn).1⟩
  refine ⟨labels, n :: blocks, h.pieces, h.distinct, h.taken, h.le, ?_, ?_, ?_, ?_⟩
  · exact List.nodup_cons.2 ⟨fun hmem => (hset n (h.fresh n hmem)).2 rfl, h.once⟩
  · intro m hm
    rcases List.mem_cons.1 hm with rfl | hm
    · exact hn
    · exact (hset m (h.fresh m hm)).1
  · intro m hm
    obtain ⟨hset', hmem⟩ := h.left m hm
    obtain ⟨hst, hne⟩ := hset m hset'
    exact ⟨hst, fun hmem' => (List.mem_cons.1 hmem').elim hne hmem⟩
  · intro m
    simp only [List.mem_cons, h.mem, exists_eq_left]
    rw [ReflTransGen.cases_head_iff, eq_comm]

end Puts

/-- A way of placing blocks that puts each block and what it brings along into the shape. -/
def PlacesAll (g : Graph B C) (d : Dominance) (place : List Frame → Nat → PlaceM (Shape B C)) :
    Prop :=
  ∀ frames n st x st', place frames n st = .ok (x, st') → g.Puts d (· = n) [] x.pieces st st'

section

variable {place : List Frame → Nat → PlaceM (Shape B C)} (hplace : g.PlacesAll d place)
include hplace

lemma placeTarget_puts {frames : List Frame} {t : Nat} {st st' : Placing} {x : Shape B C}
    (h : placeTarget d place frames n t st = .ok (x, st')) :
    g.Puts d (fun c => c = t ∧ Stays d n t) [] x.pieces st st' := by
  rcases placeTarget_eq_ok h with ⟨hstays, h⟩ | ⟨f, -, -, -, hstays, rfl, rfl⟩
  · exact (hplace _ _ _ _ _ h).congr (fun c => and_iff_left hstays) (.refl _) (.refl _)
  · rw [Shape.pieces]
    exact .none fun c hc => hstays hc.2

lemma placeExit_puts {frames : List Frame} {e : Exit C} {st st' : Placing} {x : Shape B C}
    (h : placeExit d place frames n e st = .ok (x, st')) :
    g.Puts d (fun c => c = e.target ∧ Stays d n e.target) [] x.pieces st st' := by
  obtain ⟨next, hnext, rfl⟩ := placeExit_eq_ok h
  have hputs := placeTarget_puts hplace hnext
  cases e.dispatch with
  | some id =>
    rw [Option.elim_some, Shape.pieces_ofList]
    rwa [Shape.piecesAll, Shape.pieces, Shape.piecesAll, Shape.piecesAll, List.nil_append,
      List.append_nil]
  | none => exact hputs

lemma placeExits_puts {frames : List Frame} {exits : List (Exit C)} {st st' : Placing}
    {x : Shape B C} (hexits : exits = [] ∨ Complete exits)
    (h : placeExits d place frames n exits st = .ok (x, st')) :
    g.Puts d (fun c => (∃ e ∈ exits, e.target = c) ∧ Stays d n c)
      ((exits.filterMap Exit.test).map .test) x.pieces st st' := by
  rcases hexits with rfl | hc
  · cases h
    exact .none fun c => by simp
  induction hc generalizing x st' with
  | @last e ht =>
    obtain ⟨o, next, st₁, ho, hnext, rfl⟩ := placeExits_cons_eq_ok h
    cases ho
    rw [ht, Option.elim_none]
    refine (placeExit_puts hplace hnext).congr (fun c => ?_) (.refl _) (by simp [ht])
    simp only [List.mem_singleton, exists_eq_left, @eq_comm _ c]
    exact and_congr_right fun hc => by rw [hc]
  | @test e t rest ht _ ih =>
    obtain ⟨o, next, st₁, ho, hnext, rfl⟩ := placeExits_cons_eq_ok h
    rw [ht, Option.elim_some]
    -- the exit is placed last and stands first
    refine (((ih ho).append (placeExit_puts hplace hnext)).add [.test t]).congr (fun c => ?_) ?_ ?_
    · simp only [List.exists_mem_cons_iff, or_and_right, @eq_comm _ c]
      rw [or_comm]
      refine or_congr_right (and_congr_right fun hc => by rw [hc])
    · rw [Shape.pieces]
      exact List.perm_append_comm.cons _
    · rw [List.append_nil, List.filterMap_cons, ht]
      exact .refl _

lemma placeWithin_puts (hexits : g.exits n = [] ∨ Complete (g.exits n)) {ys : List Nat}
    {frames : List Frame} {st st' : Placing} {x : Shape B C}
    (h : g.placeWithin d place n ys frames st = .ok (x, st')) :
    g.Puts d (fun c => c ∈ ys ∨ g.Edge n c ∧ Stays d n c) (g.piecesOf n) x.pieces st st' := by
  induction ys generalizing frames st st' x with
  | nil =>
    obtain ⟨next, hnext, rfl⟩ := placeWithin_nil_eq_ok h
    refine ((placeExits_puts hplace hexits hnext).add ((g.body? n).toList.map .body)).congr
      (fun c => by simp [Edge, targets]) ?_ (.refl _)
    rw [Shape.pieces_ofList, Shape.piecesAll_append]
    refine List.Perm.append (.of_eq ?_) (.of_eq (List.append_nil _))
    rcases g.body? n with _ | b <;> rfl
  | cons y rest ih =>
    obtain ⟨inner, follow, st₁, hinner, hfollow, rfl⟩ := placeWithin_cons_eq_ok h
    refine ((ih hinner).append (hplace _ _ _ _ _ hfollow)).label.congr (fun c => ?_) (.of_eq ?_)
      (.of_eq (List.append_nil _))
    · rw [List.mem_cons, or_assoc]
      exact or_comm
    · rw [Shape.pieces_ofList]
      simp only [Shape.piecesAll, Shape.pieces, List.append_nil, List.cons_append]

end

/-- Placing a block puts it and what it brings along into the shape, each block once. -/
theorem placeTree_puts (hexits : ∀ n, g.exits n = [] ∨ Complete (g.exits n)) (fuel : Nat) :
    g.PlacesAll d (g.placeTree d fuel) := by
  induction fuel with
  | zero =>
    intro frames n st x st' h
    cases h
  | succ fuel ih =>
    intro frames n st x st' h
    obtain ⟨hn, h⟩ := placeTree_succ_eq_ok h
    have hroots : ∀ c, g.Brings d n c ↔
        c ∈ ((d.children.getD n []).filter fun y => d.merge.getD y false) ∨
          g.Edge n c ∧ Stays d n c := fun c => by rw [List.mem_filter, Brings]
    apply Puts.block hn
    rcases h with ⟨inner, hinner, rfl⟩ | h
    · rw [Shape.pieces]
      exact (placeWithin_puts ih (hexits n) hinner).label.congr hroots (.refl _) (.refl _)
    · exact (placeWithin_puts ih (hexits n) h).congr hroots (.refl _) (.refl _)

/-- In a graph that is laid out, the entry brings along the blocks that it reaches. -/
lemma Laid.brings_iff {order : List Nat} (h : g.Laid order) (hs : Sound g order d) :
    ReflTransGen (g.Brings d) g.entry n ↔ n ∈ order := by
  constructor
  · intro hn
    induction hn with
    | refl => exact h.entry_mem
    | tail _ hb ih =>
      rcases hb with ⟨hc, -⟩ | ⟨he, -⟩
      · exact ((hs.children _ _).1 hc).1
      · exact h.mem_of_edge ih he
  · intro hn
    induction hk : order.idxOf n using Nat.strong_induction_on generalizing n with
    | h k ih =>
      subst hk
      by_cases hne : n = g.entry
      · rw [hne]
      by_cases hm : d.merge.getD n false = true
      · -- a merge is placed by the block that immediately dominates it
        obtain ⟨c, hc, hidom⟩ := h.exists_idom hn hne
        exact (ih _ (h.idom_lt hn hidom).2 hc rfl).tail (.inl ⟨(hs.children c n).2 ⟨hn, hne, hidom⟩, hm⟩)
      · obtain ⟨u, hu, he, hlt⟩ := h.exists_earlier hn hne
        refine (ih _ hlt hu rfl).tail (.inr ⟨he, ?_, hm⟩)
        rwa [hs.number u hu, hs.number n hn]

end Dynarec.Flow.Graph
