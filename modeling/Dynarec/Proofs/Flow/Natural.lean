import Mathlib.Data.Set.List
import Dynarec.Flow.Placement
import Dynarec.Proofs.Flow.Split
import Dynarec.Proofs.Shape.Map

/-!
# Structured forms of mapped graphs

How a graph is laid out hangs on its exits only, not on what its bodies and conditions are. Mapping
them commutes with every step of finding the structured form, so it may be done before or after.
-/

namespace Dynarec.Flow

variable {B B' C C' : Type}

/-- Replace the condition of an exit. -/
def Exit.map (h : C → C') (e : Exit C) : Exit C' := ⟨e.test.map (Test.map h), e.target, e.dispatch⟩

/-- Replace the body and the conditions of a block. -/
def Block.map (f : B → B') (h : C → C') (b : Block B C) : Block B' C' :=
  ⟨b.body.map f, b.exits.map (Exit.map h), b.absorbed⟩

namespace Graph

/-- Replace the bodies and the conditions of a graph. -/
def map (f : B → B') (h : C → C') (g : Graph B C) : Graph B' C' :=
  ⟨g.blocks.map (Block.map f h), g.entry⟩

variable {f : B → B'} {h : C → C'} {g : Graph B C}

@[simp] lemma entry_map : (g.map f h).entry = g.entry := rfl

@[simp] lemma size_blocks_map : (g.map f h).blocks.size = g.blocks.size := by simp [map]

@[simp] lemma isEmpty_blocks_map : (g.map f h).blocks.isEmpty = g.blocks.isEmpty := by
  simp [Array.isEmpty]

lemma getElem?_blocks_map (v : Nat) :
    (g.map f h).blocks[v]? = (g.blocks[v]?).map (Block.map f h) := by simp [map]

@[simp] lemma exits_map (v : Nat) : (g.map f h).exits v = (g.exits v).map (Exit.map h) := by
  unfold exits
  rw [getElem?_blocks_map]
  cases g.blocks[v]? <;> rfl

@[simp] lemma targets_map (v : Nat) : (g.map f h).targets v = g.targets v := by
  simp [targets, Function.comp_def, Exit.map]

/-! ### Reachable blocks and chains -/

@[simp] lemma explore_map (fuel : Nat) (stack : List Nat) (seen : Array Bool) :
    (g.map f h).explore fuel stack seen = g.explore fuel stack seen := by
  induction fuel generalizing stack seen with
  | zero => rfl
  | succ fuel ih =>
    cases stack with
    | nil => rfl
    | cons v stack => simp [explore, ih]

@[simp] lemma reachable_map : (g.map f h).reachable = g.reachable := by simp [reachable]

lemma checkExits_map (count v : Nat) (es : List (Exit C)) :
    checkExits count v (es.map (Exit.map h)) = checkExits count v es := by
  induction es with
  | nil => rfl
  | cons e rest ih => simp [checkExits, ih, Exit.map]

@[simp] lemma validate_map : (g.map f h).validate = g.validate := by
  simp [validate, checkExits_map]

@[simp] lemma incoming_map : (g.map f h).incoming = g.incoming := by simp [incoming]

lemma absorbed_map (v : Nat) :
    ((g.map f h).blocks[v]?).map (·.absorbed) = (g.blocks[v]?).map (·.absorbed) := by
  rw [getElem?_blocks_map]
  cases g.blocks[v]? <;> rfl

@[simp] lemma absorbable?_map (counts : Array Nat) (a : Nat) :
    (g.map f h).absorbable? counts a = g.absorbable? counts a := by
  unfold absorbable?
  rw [exits_map]
  rcases g.exits a with _ | ⟨e, _ | ⟨e', rest⟩⟩
  · rfl
  · simp [absorbed_map, Exit.map]
  · rfl

section
variable {join : B → B → B} {join' : B' → B' → B'} (hjoin : ∀ a b, f (join a b) = join' (f a) (f b))
include hjoin

lemma absorb_map (a b : Nat) : (g.map f h).absorb join' a b = (g.absorb join a b).map f h := by
  unfold absorb
  rw [getElem?_blocks_map]
  cases hb : g.blocks[b]? with
  | none => rfl
  | some absorbed =>
    simp only [Option.map_some, map, Graph.mk.injEq, and_true]
    apply Array.ext_getElem?
    intro v
    simp only [Array.getElem?_modify, Array.getElem?_map, Array.getElem?_setIfInBounds]
    rcases absorbed with ⟨_ | src, _, _⟩ <;> rcases g.blocks[v]? with _ | ⟨_ | dst, _, _⟩ <;>
      split <;> split <;> simp [Block.map, hjoin]

lemma absorbChain_map (counts : Array Nat) (fuel : Nat) (a : Nat) :
    absorbChain join' counts fuel (g.map f h) a = (absorbChain join counts fuel g a).map f h := by
  induction fuel generalizing g with
  | zero => rfl
  | succ fuel ih =>
    simp only [absorbChain, absorbable?_map]
    cases g.absorbable? counts a with
    | none => rfl
    | some b => simp only [absorb_map hjoin, ih]

lemma coalesce_map : (g.map f h).coalesce join' = (g.coalesce join).map f h := by
  unfold coalesce
  simp only [reachable_map, incoming_map, size_blocks_map]
  apply List.foldl_hom
  intro k a
  rw [absorbed_map]
  split
  · rw [absorbChain_map hjoin, size_blocks_map]
  · rfl

end

/-! ### Cycles -/

lemma prune_map : (g.map f h).prune = g.prune.map f h := by
  unfold prune
  rw [reachable_map]
  simp only [map, Graph.mk.injEq, and_true]
  apply Array.ext_getElem?
  intro v
  simp only [Array.getElem?_mapIdx, Array.getElem?_map, Option.map_map]
  congr 1
  funext b
  simp only [Function.comp_apply]
  split <;> simp [Block.map]

lemma withFreshEntry_map : (g.map f h).withFreshEntry = g.withFreshEntry.map f h := by
  unfold withFreshEntry
  simp only [targets_map, size_blocks_map, entry_map]
  split
  · simp [map, Block.map, Exit.map]
  · rfl

@[simp] lemma visit_map (region : Array Bool) (fuel v : Nat) (s : Search) :
    (g.map f h).visit region fuel v s = g.visit region fuel v s := by
  induction fuel generalizing v s with
  | zero => rfl
  | succ fuel ih => simp [visit, ih]

@[simp] lemma components_map (region : Array Bool) :
    (g.map f h).components region = g.components region := by simp [components]

@[simp] lemma entriesOf_map (region : Array Bool) :
    (g.map f h).entriesOf region = g.entriesOf region := by simp [entriesOf]

@[simp] lemma isCyclic_map (members : List Nat) :
    (g.map f h).isCyclic members = g.isCyclic members := by
  rcases members with _ | ⟨v, _ | ⟨w, rest⟩⟩ <;> simp [isCyclic]

lemma dispatcherExits_map (entries : List Nat) :
    (dispatcherExits entries : List (Exit C)).map (Exit.map h) = dispatcherExits entries := by
  induction entries with
  | nil => rfl
  | cons v rest ih =>
    cases rest with
    | nil => rfl
    | cons w rest => simpa [dispatcherExits, Exit.map, Test.map] using ih

lemma insertDispatcher_map (entries : List Nat) :
    (g.map f h).insertDispatcher entries =
      ((g.insertDispatcher entries).1, (g.insertDispatcher entries).2.map f h) := by
  unfold insertDispatcher
  rw [size_blocks_map]
  simp only [map, Array.map_push, Array.map_map, Prod.mk.injEq, true_and,
    Graph.mk.injEq, and_true]
  congr 1
  · congr 1
    funext b
    simp only [Function.comp_apply, Block.map, List.map_map, Block.mk.injEq, true_and, and_true]
    congr 1
    funext e
    by_cases he : (regionOf g.blocks.size entries).getD e.target false = true
    · rw [Function.comp_apply, Function.comp_apply, if_pos he]
      exact if_pos he
    · rw [Function.comp_apply, Function.comp_apply, if_neg he]
      exact if_neg he
  · simp [Block.map, dispatcherExits_map]

lemma split_map (fuel : Nat) (region : Array Bool) :
    split fuel region (g.map f h) = (split fuel region g).map f h := by
  induction fuel generalizing region g with
  | zero => rfl
  | succ fuel ih =>
    rw [split_succ, split_succ, components_map]
    apply List.foldl_hom
    intro k members
    by_cases hcyclic : k.isCyclic members = true
    · by_cases hsingle : ∃ a, k.entriesOf (regionOf k.blocks.size members) = [a]
      · obtain ⟨a, ha⟩ := hsingle
        rw [splitComponent_single hcyclic ha,
          splitComponent_single (by simpa using hcyclic) (by simpa using ha), size_blocks_map, ih]
      · rw [not_exists] at hsingle
        rw [splitComponent_several hcyclic hsingle,
          splitComponent_several (by simpa using hcyclic) (by simpa using hsingle),
          size_blocks_map, entriesOf_map, insertDispatcher_map, ih]
    · simp [splitComponent, hcyclic]

lemma splitIrreducible_map : (g.map f h).splitIrreducible = g.splitIrreducible.map f h := by
  simp only [splitIrreducible, size_blocks_map, reachable_map, split_map]

/-! ### Dominance -/

@[simp] lemma finish_map (fuel v : Nat) (s : Postorder) :
    (g.map f h).finish fuel v s = g.finish fuel v s := by
  induction fuel generalizing v s with
  | zero => rfl
  | succ fuel ih => simp [finish, ih]

@[simp] lemma reversePostorder_map : (g.map f h).reversePostorder = g.reversePostorder := by
  simp [reversePostorder]

@[simp] lemma immediateDominators_map (order : List Nat) :
    (g.map f h).immediateDominators order = g.immediateDominators order := by
  simp [immediateDominators, positions, predecessors]

@[simp] lemma dominates_map (idom : Array (Option Nat)) (a fuel b : Nat) :
    (g.map f h).dominates idom a fuel b = g.dominates idom a fuel b := by
  induction fuel generalizing b with
  | zero => rfl
  | succ fuel ih => simp [dominates, ih]

@[simp] lemma dominance_map : (g.map f h).dominance = g.dominance := by
  simp [dominance, classify, positions]

/-! ### Placement -/

lemma jump_map (frames : List Frame) (source target : Nat) (kind : FrameKind) :
    (jump frames source target kind : PlaceM (Shape B' C')) =
      Shape.map f h <$> jump frames source target kind := by
  unfold jump
  split
  · simp [Shape.map]
  · rfl

section
variable {d : Dominance} {place : List Frame → Nat → PlaceM (Shape B C)}
  {place' : List Frame → Nat → PlaceM (Shape B' C')}
  (hplace : ∀ frames v, place' frames v = Shape.map f h <$> place frames v)
include hplace

lemma placeTarget_map (frames : List Frame) (v target : Nat) :
    placeTarget d place' frames v target = Shape.map f h <$> placeTarget d place frames v target := by
  unfold placeTarget
  split
  · exact jump_map frames v target .loop
  · split
    · exact jump_map frames v target .block
    · exact hplace frames target

lemma placeExit_map (frames : List Frame) (v : Nat) (e : Exit C) :
    placeExit d place' frames v (e.map h) = Shape.map f h <$> placeExit d place frames v e := by
  unfold placeExit
  simp only [Exit.map, placeTarget_map hplace, bind_map_left, map_bind]
  congr 1
  funext next
  cases e.dispatch with
  | none => simp
  | some id => simp [Shape.ofList_map, Shape.map]

lemma placeExits_map (frames : List Frame) (v : Nat) (es : List (Exit C)) :
    placeExits d place' frames v (es.map (Exit.map h)) =
      Shape.map f h <$> placeExits d place frames v es := by
  induction es with
  | nil => simp [placeExits, Shape.empty, Shape.map, Shape.mapAll]
  | cons e rest ih =>
    simp only [List.map_cons, placeExits, ih, placeExit_map hplace, bind_map_left, map_bind]
    congr 1
    funext otherwise
    congr 1
    funext next
    cases ht : e.test <;> simp [Exit.map, ht, Shape.map]

lemma placeWithin_map (v : Nat) (merges : List Nat) (frames : List Frame) :
    (g.map f h).placeWithin d place' v merges frames =
      Shape.map f h <$> g.placeWithin d place v merges frames := by
  induction merges generalizing frames with
  | nil =>
    simp only [placeWithin, getElem?_blocks_map, exits_map, placeExits_map hplace, bind_map_left,
      map_bind]
    congr 1
    funext next
    rcases g.blocks[v]? with _ | ⟨_ | body, exits, absorbed⟩ <;>
      simp [Block.map, Shape.ofList_map, Shape.map]
  | cons y rest ih =>
    simp only [placeWithin, ih, hplace, bind_map_left, map_bind]
    congr 1
    funext label
    congr 1
    funext inner
    congr 1
    funext follow
    simp [Shape.ofList_map, Shape.map]

end

lemma placeTree_map (d : Dominance) (fuel : Nat) (frames : List Frame) (v : Nat) :
    (g.map f h).placeTree d fuel frames v = Shape.map f h <$> g.placeTree d fuel frames v := by
  induction fuel generalizing frames v with
  | zero => rfl
  | succ fuel ih =>
    simp only [placeTree, map_bind]
    congr 1
    funext _
    split
    · simp only [placeWithin_map ih, bind_map_left, map_bind]
      congr 1
    · exact placeWithin_map ih v _ frames

/-- The structured form of a mapped graph is the mapped structured form. -/
theorem structurize_map : (g.map f h).structurize = g.structurize.map (Shape.map f h) := by
  unfold structurize
  rw [validate_map, prune_map, withFreshEntry_map, splitIrreducible_map]
  generalize g.prune.withFreshEntry.splitIrreducible = k
  cases g.validate with
  | error e => rfl
  | ok u =>
    simp only [dominance_map, size_blocks_map, entry_map, placeTree_map]
    cases k.dominance with
    | error e => rfl
    | ok d =>
      simp only [StateT.run_map]
      have hrun : ∀ r : Except StructureError (Shape B C × Placing),
          (do return (← (fun p => (p.1.map f h, p.2)) <$> r).1) =
            Except.map (Shape.map f h) (do return (← r).1) := by
        rintro (e | p) <;> rfl
      exact hrun _

/-! ### Properties of all bodies -/

/-- Every body and every condition of a graph has a property. -/
def All (p : B → Prop) (q : C → Prop) (g : Graph B C) : Prop :=
  ∀ b ∈ g.blocks, (∀ body, b.body = some body → p body) ∧
    ∀ e ∈ b.exits, ∀ c, e.test = some (.cond c) → q c

/-- A graph whose bodies and conditions have a property is one over what has the property. -/
lemma exists_map_of_all {p : B → Prop} {q : C → Prop} (hg : g.All p q) :
    ∃ k : Graph { b // p b } { c // q c }, k.map Subtype.val Subtype.val = g := by
  have hexit : ∀ e : Exit C, (∀ c, e.test = some (.cond c) → q c) →
      ∃ e' : Exit { c // q c }, e'.map Subtype.val = e := by
    rintro ⟨_ | _ | id, target, dispatch⟩ he
    · exact ⟨⟨none, target, dispatch⟩, rfl⟩
    · exact ⟨⟨some (.cond ⟨_, he _ rfl⟩), target, dispatch⟩, rfl⟩
    · exact ⟨⟨some (.dispatchIs id), target, dispatch⟩, rfl⟩
  have hblock : ∀ b ∈ g.blocks.toList,
      ∃ b' : Block { b // p b } { c // q c }, b'.map Subtype.val Subtype.val = b := by
    intro b hb
    obtain ⟨hbody, hexits⟩ := hg b (Array.mem_toList_iff.mp hb)
    obtain ⟨exits, hexits⟩ : b.exits ∈ Set.range (List.map (Exit.map Subtype.val)) := by
      rw [Set.range_list_map]
      exact fun e he => hexit e (hexits e he)
    obtain ⟨body, hbody⟩ : ∃ body : Option { b // p b }, body.map Subtype.val = b.body := by
      cases h : b.body with
      | none => exact ⟨none, rfl⟩
      | some body => exact ⟨some ⟨body, hbody body h⟩, rfl⟩
    exact ⟨⟨body, exits, b.absorbed⟩, by rw [Block.map, hbody, hexits]⟩
  obtain ⟨blocks, hblocks⟩ : g.blocks.toList ∈
      Set.range (List.map (Block.map Subtype.val Subtype.val)) := by
    rw [Set.range_list_map]
    exact hblock
  refine ⟨⟨blocks.toArray, g.entry⟩, ?_⟩
  simp only [map, List.map_toArray, hblocks, Array.toArray_toList]

lemma all_map_val {p : B → Prop} {q : C → Prop} {k : Graph { b // p b } { c // q c }} :
    (k.map Subtype.val Subtype.val).All p q := by
  intro b hb
  obtain ⟨b', -, rfl⟩ := Array.mem_map.mp hb
  constructor
  · intro body hbody
    obtain ⟨body', -, rfl⟩ := Option.map_eq_some_iff.mp hbody
    exact body'.2
  · intro e he c hc
    obtain ⟨e', -, rfl⟩ := List.mem_map.mp he
    obtain ⟨t, -, ht⟩ := Option.map_eq_some_iff.mp hc
    cases t with
    | cond c' => cases ht; exact c'.2
    | dispatchIs id => cases ht

/-- What holds of every body and condition of a graph holds of every body and condition of its
structured form. -/
theorem structurize_all {p : B → Prop} {q : C → Prop} (hg : g.All p q) {x : Shape B C}
    (hx : g.structurize = .ok x) : x.All p q := by
  obtain ⟨k, rfl⟩ := exists_map_of_all hg
  rw [structurize_map] at hx
  cases hk : k.structurize with
  | error e => simp [hk, Except.map] at hx
  | ok y =>
    obtain rfl : y.map Subtype.val Subtype.val = x := by simpa [hk, Except.map] using hx
    exact Shape.all_map.mpr (Shape.all_of_forall (·.2) (·.2) y)

/-- What holds of every body of a graph and of joined bodies holds when chains are merged. -/
theorem all_coalesce {p : B → Prop} {q : C → Prop} {join : B → B → B}
    (hjoin : ∀ a b, p a → p b → p (join a b)) (hg : g.All p q) : (g.coalesce join).All p q := by
  obtain ⟨k, rfl⟩ := exists_map_of_all hg
  let joined (a b : Subtype p) : Subtype p := ⟨join a.1 b.1, hjoin a.1 b.1 a.2 b.2⟩
  have hjoined : ∀ a b, (joined a b).1 = join a.1 b.1 := fun _ _ => rfl
  rw [coalesce_map hjoined]
  exact all_map_val

/-! ### Building graphs -/

lemma all_empty {p : B → Prop} {q : C → Prop} : (empty : Graph B C).All p q := by
  intro b hb
  simp [empty] at hb

lemma all_addBlock {p : B → Prop} {q : C → Prop} (hg : g.All p q) {body : B} (hbody : p body) :
    (g.addBlock body).2.All p q := by
  intro b hb
  rcases Array.mem_push.mp hb with hb | rfl
  · exact hg b hb
  · exact ⟨fun body' h => by cases h; exact hbody, nofun⟩

lemma all_addExit {p : B → Prop} {q : C → Prop} (hg : g.All p q) {cond : Option C}
    (hcond : ∀ c, cond = some c → q c) (source target : Nat) :
    (g.addExit source cond target).All p q := by
  intro b hb
  obtain ⟨v, hv⟩ := Array.getElem?_of_mem hb
  simp only [addExit, Array.getElem?_modify] at hv
  split at hv
  · obtain ⟨b', hb', rfl⟩ := Option.map_eq_some_iff.mp hv
    obtain ⟨hbody, hexits⟩ := hg b' (Array.mem_of_getElem? hb')
    refine ⟨hbody, fun e he c hc => ?_⟩
    rcases List.mem_append.mp he with he | he
    · exact hexits e he c hc
    · obtain rfl := List.mem_singleton.mp he
      obtain ⟨c', hc', heq⟩ := Option.map_eq_some_iff.mp hc
      cases heq
      exact hcond _ hc'
  · exact hg b (Array.mem_of_getElem? hv)

lemma addBlock_map (body : B) :
    (g.map f h).addBlock (f body) = ((g.addBlock body).1, (g.addBlock body).2.map f h) := by
  simp [addBlock, map, Block.map]

lemma addExit_map (source : Nat) (cond : Option C) (target : Nat) :
    (g.map f h).addExit source (cond.map h) target = (g.addExit source cond target).map f h := by
  simp only [addExit, map, Graph.mk.injEq, and_true]
  apply Array.ext_getElem?
  intro v
  simp only [Array.getElem?_modify, Array.getElem?_map]
  split
  · cases g.blocks[v]? with
    | none => rfl
    | some b => cases cond <;> simp [Block.map, Exit.map, Test.map]
  · rfl

/-- Mappings that agree on all bodies map a graph alike. -/
lemma map_congr_of_all {p : B → Prop} {q : C → Prop} (hg : g.All p q) {f' : B → B'}
    (hf : ∀ b, p b → f b = f' b) : g.map f h = g.map f' h := by
  obtain ⟨k, rfl⟩ := exists_map_of_all hg
  have hcomp : ∀ F : B → B', (k.map Subtype.val Subtype.val).map F h =
      k.map (fun b => F b.1) fun c => h c.1 := by
    intro F
    simp [map, Block.map, Exit.map, Function.comp_def, Test.map_map]
  rw [hcomp, hcomp]
  congr 1
  funext b
  exact hf b.1 b.2

end Graph

end Dynarec.Flow
