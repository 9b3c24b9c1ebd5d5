import Mathlib.Data.List.Nodup
import Mathlib.Logic.Relation
import Mathlib.Tactic.Common
import Dynarec.Compiler.Block
import Dynarec.Proofs.Compiler.Scratch
import Dynarec.Proofs.Ir.Alike
import Dynarec.Proofs.Run

/-!
# Compiling with other scratch locals

Compiling an instruction asks for scratch locals and gives them back, and which ones it gets depends
on the function around it. `Emits` compares two runs of the same piece of the compiler on blocks
whose locals differ: both succeed, the operations of both stay alike, and the locals that they hold
stay paired. The context of a piece lists the pairs of held locals and says how far the block is; what
a piece of the compiler does to the context is its specification.
-/

namespace Dynarec

/-- Slots after some addresses have been asked for. -/
abbrev Linking.Slots.Asked {F : Type} : Slots F → Slots F → Prop :=
  Relation.ReflTransGen fun s s' => ∃ addr, s' = (s.functionSlot addr).2

end Dynarec

namespace Dynarec.Compiler

open Ir (Op Place Operand Local Ty Matching Scratch)
open Linking (Slots)

/-- A scratch local that is held and its partner in the other run, and whether they have been
written. -/
structure Pair where
  left : Local
  right : Local
  ready : Bool
  deriving DecidableEq

/-- How far a block is: it has plain operations only, it may have run another function, it has
returned, or it has ended. -/
inductive Phase where
  | plain
  | calling
  | returned
  | ended
  deriving DecidableEq

/-- Whether operations may follow. -/
def Phase.isOpen : Phase → Bool
  | .plain | .calling => true
  | .returned | .ended => false

/-- The pairs of held locals, and how far the block is. -/
structure Context where
  held : List Pair
  phase : Phase

/-- The matching of the pairs that have been written. -/
def Ready (held : List Pair) : Matching := fun l l' => ⟨l, l', true⟩ ∈ held

/-- Ends of blocks that are alike. -/
inductive Terminator.Alike (D : Matching) : Option Terminator → Option Terminator → Prop where
  | none : Alike D none none
  | stop : Alike D (some .stop) (some .stop)
  | always {target : UInt64} : Alike D (some (.branch target none)) (some (.branch target none))
  | branch {target : UInt64} {c c' : Operand} : c.Alike D c' →
    Alike D (some (.branch target (some c))) (some (.branch target (some c')))

/-- What a phase says of the operations and of the end of the block so far. -/
def Phase.Allows (D : Matching) (ops : List Op) (t t' : Option Terminator) : Phase → Prop
  | .plain => t = none ∧ t' = none ∧ ops.all Op.isPlain
  | .calling => t = none ∧ t' = none
  | .returned => t = none ∧ t' = none ∧ ∃ x, .ret x ∈ ops
  | .ended => Terminator.Alike D t t' ∧ (t = some .stop → ∃ x, .ret x ∈ ops)

/-- Two blocks to which the same pieces of the compiler have been applied, where the first one has
held no locals at the start and the second one has been empty. -/
structure Block.Alike (start : Block) (Γ : Context) (b b' : Block) : Prop where
  pc : b.pc = b'.pc
  word : b.word = b'.word
  slots : b.slots = b'.slots
  asked : Slots.Asked start.slots b.slots
  valid : b.scratch.Valid
  valid' : b'.scratch.Valid
  types : ∀ (i : Nat) ty, start.scratch.types[i]? = some ty → b.scratch.types[i]? = some ty
  holds : ∀ l, b.scratch.Holds l ↔ l ∈ Γ.held.map Pair.left
  holds' : ∀ l, b'.scratch.Holds l ↔ l ∈ Γ.held.map Pair.right
  nodup : (Γ.held.map Pair.left).Nodup
  nodup' : (Γ.held.map Pair.right).Nodup
  typed : ∀ p ∈ Γ.held, ∃ ty, b.scratch.types[p.left.id]? = some ty ∧
    b'.scratch.types[p.right.id]? = some ty
  ops : ∃ xs D, b.ops.toList = start.ops.toList ++ xs ∧
    Op.AllAlike b.scratch.types b'.scratch.types (fun _ _ => False) xs b'.ops.toList D ∧
    (∀ l l', Ready Γ.held l l' → D l l') ∧ Γ.phase.Allows D xs b.terminator b'.terminator

/-- Both runs succeed, with results and blocks that are related. -/
def EndAlike {α : Type} (start : Block) (Q : α → α → Context → Prop)
    (r r' : EStateM.Result Error Block α) : Prop :=
  match r, r' with
  | .ok a b, .ok a' b' => ∃ Γ, Q a a' Γ ∧ Block.Alike start Γ b b'
  | _, _ => False

/-- Two pieces of the compiler do alike in a context. -/
structure Emits {α : Type} (Γ : Context) (m m' : EmitM α) (Q : α → α → Context → Prop) : Prop where
  agree : ∀ start b b', Block.Alike start Γ b b' → EndAlike start Q (m b) (m' b')

/-- The pieces lead to a context. -/
def Leads {α : Type} (Γ : Context) : α → α → Context → Prop := fun _ _ Γ' => Γ' = Γ

/-- The pieces give a pair of new locals, written and held before those of a context. -/
def Gives (held : List Pair) (phase : Phase) : Local → Local → Context → Prop :=
  fun l l' Γ' => Γ' = ⟨⟨l, l', true⟩ :: held, phase⟩

/-- One more operation on either side. -/
lemma Block.Alike.emit {start b b' : Block} {Γ : Context} {op op' : Op} {held : List Pair}
    {phase : Phase} (hb : Block.Alike start Γ b b')
    (hpairs : held.map (fun p => (p.left, p.right)) = Γ.held.map fun p => (p.left, p.right))
    (hop : ∀ D, (∀ l l', Ready Γ.held l l' → D l l') →
      ∃ D₁, op.Alike b.scratch.types b'.scratch.types D op' D₁ ∧ ∀ l l', Ready held l l' → D₁ l l')
    (hphase : ∀ D D₁ xs, Γ.phase.Allows D xs b.terminator b'.terminator →
      phase.Allows D₁ (xs ++ [op]) b.terminator b'.terminator) :
    Block.Alike start ⟨held, phase⟩ { b with ops := b.ops.push op }
      { b' with ops := b'.ops.push op' } := by
  have hleft : held.map Pair.left = Γ.held.map Pair.left := by
    have h := congrArg (List.map Prod.fst) hpairs
    rwa [List.map_map, List.map_map] at h
  have hright : held.map Pair.right = Γ.held.map Pair.right := by
    have h := congrArg (List.map Prod.snd) hpairs
    rwa [List.map_map, List.map_map] at h
  refine ⟨hb.pc, hb.word, hb.slots, hb.asked, hb.valid, hb.valid', hb.types, hleft ▸ hb.holds,
    hright ▸ hb.holds', hleft ▸ hb.nodup, hright ▸ hb.nodup', fun p hp => ?_, ?_⟩
  · have hmem : (p.left, p.right) ∈ held.map fun p => (p.left, p.right) :=
      List.mem_map_of_mem (f := fun p : Pair => (p.left, p.right)) hp
    rw [hpairs] at hmem
    obtain ⟨q, hq, heq⟩ := List.mem_map.1 hmem
    obtain ⟨hl, hr⟩ := Prod.mk.inj heq
    rw [← hl, ← hr]
    exact hb.typed q hq
  · obtain ⟨xs, D, hxs, halike, hD, hallow⟩ := hb.ops
    obtain ⟨D₁, hop, hD₁⟩ := hop D hD
    refine ⟨xs ++ [op], D₁, by simp [hxs], ?_, hD₁, hphase D D₁ xs hallow⟩
    simpa using halike.concat hop

/-- The pairs may be listed in another order, and some may be taken for unwritten. -/
lemma Block.Alike.rearrange {start b b' : Block} {held held' : List Pair} {phase : Phase}
    (hb : Block.Alike start ⟨held, phase⟩ b b')
    (hleft : (held.map Pair.left).Perm (held'.map Pair.left))
    (hright : (held.map Pair.right).Perm (held'.map Pair.right))
    (hsub : ∀ p ∈ held', ∃ q ∈ held, q.left = p.left ∧ q.right = p.right ∧ (p.ready → q.ready)) :
    Block.Alike start ⟨held', phase⟩ b b' := by
  obtain ⟨xs, D, hxs, halike, hD, hphase⟩ := hb.ops
  refine ⟨hb.pc, hb.word, hb.slots, hb.asked, hb.valid, hb.valid', hb.types,
    fun l => (hb.holds l).trans hleft.mem_iff, fun l => (hb.holds' l).trans hright.mem_iff,
    hleft.nodup_iff.1 hb.nodup, hright.nodup_iff.1 hb.nodup', fun p hp => ?_,
    xs, D, hxs, halike, fun l l' hready => ?_, hphase⟩
  · obtain ⟨q, hq, hl, hr, -⟩ := hsub p hp
    rw [← hl, ← hr]
    exact hb.typed q hq
  · obtain ⟨⟨_, _, _⟩, hq, rfl, rfl, hr⟩ := hsub _ hready
    obtain rfl := hr rfl
    exact hD _ _ hq

namespace Emits

variable {α β : Type} {Γ Γ₁ : Context} {held before after : List Pair} {phase : Phase}
  {Q : β → β → Context → Prop}

/-! ### Composition -/

lemma pure {P : α → α → Context → Prop} {a a' : α} (h : P a a' Γ) :
    Emits Γ (pure a) (pure a') P := ⟨fun _ _ _ hb => ⟨Γ, h, hb⟩⟩

lemma bind {m m' : EmitM α} {k k' : α → EmitM β} {P : α → α → Context → Prop}
    (hm : Emits Γ m m' P) (hk : ∀ a a' Γ₁, P a a' Γ₁ → Emits Γ₁ (k a) (k' a') Q) :
    Emits Γ (m >>= k) (m' >>= k') Q := by
  constructor
  intro start b b' hb
  have h := hm.agree start b b' hb
  unfold EndAlike at h
  split at h
  · next a c a' c' hc hc' =>
    obtain ⟨Γ₁, hP, hcc⟩ := h
    rw [EStateM.bind_ok hc, EStateM.bind_ok hc']
    exact (hk a a' Γ₁ hP).agree start c c' hcc
  · exact h.elim

/-- A piece that leads to a context is followed by another one. -/
lemma next {m m' : EmitM α} {k k' : α → EmitM β} (hm : Emits Γ m m' (Leads Γ₁))
    (hk : ∀ a a', Emits Γ₁ (k a) (k' a') Q) : Emits Γ (m >>= k) (m' >>= k') Q := by
  apply bind hm
  rintro a a' _ rfl
  exact hk a a'

/-- A piece that gives a new pair of locals is followed by another one. -/
lemma give {m m' : EmitM Local} {k k' : Local → EmitM β} (hm : Emits Γ m m' (Gives held phase))
    (hk : ∀ l l', Emits ⟨⟨l, l', true⟩ :: held, phase⟩ (k l) (k' l') Q) :
    Emits Γ (m >>= k) (m' >>= k') Q := by
  apply bind hm
  rintro l l' _ rfl
  exact hk l l'

lemma mono {m m' : EmitM β} {P : β → β → Context → Prop} (hm : Emits Γ m m' P)
    (h : ∀ a a' Γ', P a a' Γ' → Q a a' Γ') : Emits Γ m m' Q := by
  constructor
  intro start b b' hb
  have hagree := hm.agree start b b' hb
  unfold EndAlike at hagree ⊢
  split at hagree
  · obtain ⟨Γ', hP, hcc⟩ := hagree
    exact ⟨Γ', h _ _ _ hP, hcc⟩
  · exact hagree.elim

/-- Nothing happens. -/
lemma skip {a a' : α} : Emits Γ (Pure.pure a) (Pure.pure a') (Leads Γ) := pure rfl

/-! ### The steps of the compiler -/

lemma currentPc {k k' : UInt64 → EmitM β} (h : ∀ pc, Emits Γ (k pc) (k' pc) Q) :
    Emits Γ (currentPc >>= k) (currentPc >>= k') Q := by
  constructor
  intro start b b' hb
  change EndAlike start Q (k b.pc b) (k' b'.pc b')
  rw [← hb.pc]
  exact (h b.pc).agree start b b' hb

lemma functionSlot (addr : UInt64) {k k' : Nat → EmitM β} (h : ∀ slot, Emits Γ (k slot) (k' slot) Q) :
    Emits Γ (functionSlot addr >>= k) (functionSlot addr >>= k') Q := by
  constructor
  intro start b b' hb
  have hslots : b'.slots.functionSlot addr = b.slots.functionSlot addr := by rw [hb.slots]
  change EndAlike start Q
    (k (b.slots.functionSlot addr).1 { b with slots := (b.slots.functionSlot addr).2 })
    (k' (b'.slots.functionSlot addr).1 { b' with slots := (b'.slots.functionSlot addr).2 })
  rw [hslots]
  exact (h _).agree start _ _ ⟨hb.pc, hb.word, rfl, hb.asked.tail ⟨addr, rfl⟩, hb.valid, hb.valid', hb.types,
    hb.holds, hb.holds', hb.nodup, hb.nodup', hb.typed, hb.ops⟩

/-- A new pair of locals that have not been written. -/
lemma alloc (ty : Ty) {k k' : Local → EmitM β}
    (h : ∀ l l', Emits ⟨⟨l, l', false⟩ :: Γ.held, Γ.phase⟩ (k l) (k' l') Q) :
    Emits Γ (alloc ty >>= k) (alloc ty >>= k') Q := by
  constructor
  intro start b b' hb
  have ha := Scratch.allocated_alloc hb.valid ty
  have ha' := Scratch.allocated_alloc hb.valid' ty
  change EndAlike start Q (k (b.scratch.alloc ty).1 { b with scratch := (b.scratch.alloc ty).2 })
    (k' (b'.scratch.alloc ty).1 { b' with scratch := (b'.scratch.alloc ty).2 })
  generalize b.scratch.alloc ty = x at ha ⊢
  generalize b'.scratch.alloc ty = x' at ha' ⊢
  obtain ⟨l, s⟩ := x
  obtain ⟨l', s'⟩ := x'
  refine (h l l').agree start _ _ ⟨hb.pc, hb.word, hb.slots, hb.asked, ha.valid, ha'.valid,
    fun i ty h => ha.types i ty (hb.types i ty h), fun x => ?_, fun x => ?_, ?_, ?_, ?_, ?_⟩
  · rw [ha.holds, hb.holds, List.map_cons, List.mem_cons]
  · rw [ha'.holds, hb.holds', List.map_cons, List.mem_cons]
  · rw [List.map_cons, List.nodup_cons, ← hb.holds]
    exact ⟨ha.fresh, hb.nodup⟩
  · rw [List.map_cons, List.nodup_cons, ← hb.holds']
    exact ⟨ha'.fresh, hb.nodup'⟩
  · intro p hp
    rcases List.mem_cons.1 hp with rfl | hp
    · exact ⟨ty, ha.typed, ha'.typed⟩
    · obtain ⟨ty, h, h'⟩ := hb.typed p hp
      exact ⟨ty, ha.types _ _ h, ha'.types _ _ h'⟩
  · obtain ⟨xs, D, hxs, halike, hD, hphase⟩ := hb.ops
    refine ⟨xs, D, hxs, halike.types ha.types ha'.types, fun l l' hr => ?_, hphase⟩
    refine hD l l' ((List.mem_cons.1 hr).resolve_left fun e => ?_)
    cases e

/-- A pair of locals is given back. -/
lemma release (before : List Pair) {l l' : Local} {ready : Bool} {after : List Pair}
    (h : held = before ++ ⟨l, l', ready⟩ :: after) :
    Emits ⟨held, phase⟩ (release l) (release l') (Leads ⟨before ++ after, phase⟩) := by
  subst h
  constructor
  intro start b b' hb
  have hmem : ⟨l, l', ready⟩ ∈ before ++ ⟨l, l', ready⟩ :: after := by simp
  obtain ⟨s, hs, hr⟩ := Scratch.released_release hb.valid
    ((hb.holds l).2 (List.mem_map_of_mem hmem))
  obtain ⟨s', hs', hr'⟩ := Scratch.released_release hb.valid'
    ((hb.holds' l').2 (List.mem_map_of_mem hmem))
  have hnodup := hb.nodup
  have hnodup' := hb.nodup'
  have hholds := hb.holds
  have hholds' := hb.holds'
  simp only [List.map_append, List.map_cons] at hnodup hnodup' hholds hholds'
  have hsub : ∀ p ∈ before ++ after, p ∈ before ++ ⟨l, l', ready⟩ :: after := by
    intro p hp
    simp only [List.mem_append, List.mem_cons] at hp ⊢
    exact hp.imp_right .inr
  simp only [Compiler.release, hs, hs']
  refine ⟨_, rfl, hb.pc, hb.word, hb.slots, hb.asked, hr.valid, hr'.valid, ?_, fun x => ?_,
    fun x => ?_, ?_, ?_, fun p hp => ?_, ?_⟩
  · rw [hr.types]
    exact hb.types
  · rw [List.map_append]
    exact hr.holds_iff hnodup hholds x
  · rw [List.map_append]
    exact hr'.holds_iff hnodup' hholds' x
  · rw [List.map_append]
    exact (List.nodup_middle.1 hnodup).of_cons
  · rw [List.map_append]
    exact (List.nodup_middle.1 hnodup').of_cons
  · rw [hr.types, hr'.types]
    exact hb.typed p (hsub p hp)
  · obtain ⟨xs, D, hxs, halike, hD, hphase⟩ := hb.ops
    rw [hr.types, hr'.types]
    exact ⟨xs, D, hxs, halike, fun l l' hready => hD l l' (hsub _ hready), hphase⟩

/-- Held pairs may be listed in another order. -/
lemma perm {held' : List Pair} {m m' : EmitM β} (h : held.Perm held')
    (hm : Emits ⟨held', phase⟩ m m' Q) : Emits ⟨held, phase⟩ m m' Q :=
  ⟨fun start b b' hb => hm.agree start b b' (hb.rearrange (h.map _) (h.map _)
    fun p hp => ⟨p, h.mem_iff.2 hp, rfl, rfl, id⟩)⟩

/-- A pair that has been written may be taken for one that has not. -/
lemma forget {l l' : Local} {m m' : EmitM α}
    (hm : Emits Γ m m' (Leads ⟨⟨l, l', true⟩ :: held, phase⟩)) :
    Emits Γ m m' (Leads ⟨⟨l, l', false⟩ :: held, phase⟩) := by
  constructor
  intro start b b' hb
  have hagree := hm.agree start b b' hb
  unfold EndAlike at hagree ⊢
  split at hagree
  · obtain ⟨_, rfl, hcc⟩ := hagree
    refine ⟨_, rfl, hcc.rearrange (.refl _) (.refl _) fun p hp => ?_⟩
    rcases List.mem_cons.1 hp with rfl | hp
    · exact ⟨_, List.mem_cons_self, rfl, rfl, nofun⟩
    · exact ⟨p, List.mem_cons_of_mem _ hp, rfl, rfl, id⟩
  · exact hagree.elim

/-- Pairs that are held before others are given back. -/
lemma releaseHead (ps : List Pair) : Emits ⟨ps ++ held, phase⟩ (releaseAll (ps.map Pair.left))
    (releaseAll (ps.map Pair.right)) (Leads ⟨held, phase⟩) := by
  induction ps with
  | nil => exact skip
  | cons p ps ih => exact next (release [] rfl) fun _ _ => ih

/-- Pairs that are held are given back in any order. -/
lemma releaseAll (ps rest : List Pair) {ls ls' : List Local}
    (hl : ls = ps.map Pair.left) (hr : ls' = ps.map Pair.right) (h : held.Perm (ps ++ rest)) :
    Emits ⟨held, phase⟩ (releaseAll ls) (releaseAll ls') (Leads ⟨rest, phase⟩) := by
  rw [hl, hr]
  exact perm h (releaseHead ps)

/-- The same is done for every item of a list. -/
lemma forM {f f' : α → EmitM Unit} (h : ∀ a, Emits Γ (f a) (f' a) (Leads Γ)) (as : List α) :
    Emits Γ (as.forM f) (as.forM f') (Leads Γ) := by
  induction as with
  | nil => exact skip
  | cons a as ih => exact next (h a) fun _ _ => ih

/-- A plain operation keeps the phase of an open block. -/
lemma allows_plain {D D₁ : Matching} {ops : List Op} {op : Op} {t t' : Option Terminator}
    (hopen : phase.isOpen) (hop : op.isPlain) (h : phase.Allows D ops t t') :
    phase.Allows D₁ (ops ++ [op]) t t' := by
  cases phase with
  | plain => exact ⟨h.1, h.2.1, by simpa [hop] using h.2.2⟩
  | calling => exact h
  | returned => cases hopen
  | ended => cases hopen

/-- A pair of locals is written by an operation that leads to a phase. -/
lemma writeWith (before : List Pair) {l l' : Local} {ready : Bool} {after : List Pair}
    {op op' : Op} {phase' : Phase} (h : held = before ++ ⟨l, l', ready⟩ :: after)
    (hop : op.Writes (Ready held) (.scratch l) (.scratch l') op')
    (hphase : ∀ D D₁ xs t t', phase.Allows D xs t t' → phase'.Allows D₁ (xs ++ [op]) t t') :
    Emits ⟨held, phase⟩ (emit op) (emit op') (Leads ⟨before ++ ⟨l, l', true⟩ :: after, phase'⟩) := by
  subst h
  constructor
  intro start b b' hb
  refine ⟨_, rfl, hb.emit (by simp) (fun D hD => ?_) fun D D₁ xs => hphase D D₁ xs _ _⟩
  have hmem : ⟨l, l', ready⟩ ∈ before ++ ⟨l, l', ready⟩ :: after := by simp
  obtain ⟨ty, hty, hty'⟩ := hb.typed _ hmem
  refine ⟨_, .write (hop.mono hD) (.scratch hty hty'), fun a a' hready => ?_⟩
  have hnodup := hb.nodup
  have hnodup' := hb.nodup'
  rw [List.map_append, List.map_cons, List.nodup_middle, ← List.map_append, List.nodup_cons]
    at hnodup hnodup'
  have hsplit : (⟨a, a', true⟩ : Pair) = ⟨l, l', true⟩ ∨ ⟨a, a', true⟩ ∈ before ++ after := by
    simp only [Ready, List.mem_append, List.mem_cons] at hready ⊢
    rcases hready with h | h | h
    · exact .inr (.inl h)
    · exact .inl h
    · exact .inr (.inr h)
  rcases hsplit with heq | hin
  · cases heq
    exact .inl ⟨rfl, rfl⟩
  · have hleft : a ∈ (before ++ after).map Pair.left := List.mem_map.2 ⟨_, hin, rfl⟩
    have hright : a' ∈ (before ++ after).map Pair.right := List.mem_map.2 ⟨_, hin, rfl⟩
    refine .inr ⟨fun e => hnodup.1 (e ▸ hleft), fun e => hnodup'.1 (e ▸ hright), hD a a' ?_⟩
    simp only [Ready, List.mem_append, List.mem_cons] at hin ⊢
    exact hin.imp_right .inr

/-- A plain operation writes a pair of held locals. -/
lemma write (before : List Pair) {l l' : Local} {ready : Bool} {after : List Pair} {op op' : Op}
    (hopen : phase.isOpen) (h : held = before ++ ⟨l, l', ready⟩ :: after)
    (hop : op.Writes (Ready held) (.scratch l) (.scratch l') op') (hplain : op.isPlain) :
    Emits ⟨held, phase⟩ (emit op) (emit op') (Leads ⟨before ++ ⟨l, l', true⟩ :: after, phase⟩) :=
  writeWith before h hop fun _ _ _ _ _ => allows_plain hopen hplain

/-- A pair of held locals is written with what a function returns that is run. -/
lemma request (before : List Pair) {l l' : Local} {ready : Bool} {after : List Pair} {op op' : Op}
    (hopen : phase.isOpen) (h : held = before ++ ⟨l, l', ready⟩ :: after)
    (hop : op.Writes (Ready held) (.scratch l) (.scratch l') op') :
    Emits ⟨held, phase⟩ (emit op) (emit op')
      (Leads ⟨before ++ ⟨l, l', true⟩ :: after, .calling⟩) := by
  apply writeWith before h hop
  intro D D₁ xs t t' hallow
  cases phase with
  | plain => exact ⟨hallow.1, hallow.2.1⟩
  | calling => exact hallow
  | returned => cases hopen
  | ended => cases hopen

/-- An operation that changes no local. -/
lemma keepWith {op op' : Op} {phase' : Phase}
    (hop : ∀ T T' D, (∀ l l', Ready held l l' → D l l') → op.Alike T T' D op' D)
    (hphase : ∀ D D₁ xs t t', phase.Allows D xs t t' → phase'.Allows D₁ (xs ++ [op]) t t') :
    Emits ⟨held, phase⟩ (emit op) (emit op') (Leads ⟨held, phase'⟩) :=
  ⟨fun _ _ _ hb => ⟨_, rfl, hb.emit rfl (fun D hD => ⟨D, hop _ _ D hD, hD⟩)
    fun D D₁ xs => hphase D D₁ xs _ _⟩⟩

/-- A plain operation writes a place of the processor. -/
lemma place {p : Place} {op op' : Op} (hopen : phase.isOpen) (hp : ∀ l, p ≠ .scratch l)
    (hop : op.Writes (Ready held) p p op') (hplain : op.isPlain) :
    Emits ⟨held, phase⟩ (emit op) (emit op') (Leads ⟨held, phase⟩) := by
  refine keepWith (fun T T' D hD => ?_) fun _ _ _ _ _ => allows_plain hopen hplain
  have hwrite : op.Alike T T' D op' (D.write p p) := .write (hop.mono hD) (.place hp)
  rwa [Matching.write_place hp] at hwrite

lemma store {size : AccessSize} {a a' x x' : Operand} (hopen : phase.isOpen)
    (ha : a.Alike (Ready held) a') (hx : x.Alike (Ready held) x') :
    Emits ⟨held, phase⟩ (emit (.store size a x)) (emit (.store size a' x')) (Leads ⟨held, phase⟩) :=
  keepWith (fun _ _ _ hD => .store (ha.mono hD) (hx.mono hD))
    fun _ _ _ _ _ => allows_plain hopen rfl

/-- The function is left if a call has not come back to where it should. -/
lemma leave {c c' x x' : Operand} (hc : c.Alike (Ready held) c') (hx : x.Alike (Ready held) x') :
    Emits ⟨held, .calling⟩ (emit (.branch c [.ret x] [])) (emit (.branch c' [.ret x'] []))
      (Leads ⟨held, .calling⟩) :=
  keepWith (fun _ _ _ hD => .leave (hc.mono hD) (hx.mono hD)) fun _ _ _ _ _ h => h

/-- The function returns. -/
lemma ret {x x' : Operand} (hopen : phase.isOpen) (hx : x.Alike (Ready held) x') :
    Emits ⟨held, phase⟩ (emit (.ret x)) (emit (.ret x')) (Leads ⟨held, .returned⟩) := by
  refine keepWith (fun _ _ _ hD => .ret (hx.mono hD)) fun D D₁ xs t t' hallow => ?_
  have hret : ∃ y, Op.ret y ∈ xs ++ [.ret x] := ⟨x, by simp⟩
  cases phase with
  | plain => exact ⟨hallow.1, hallow.2.1, hret⟩
  | calling => exact ⟨hallow.1, hallow.2, hret⟩
  | returned => cases hopen
  | ended => cases hopen

/-- The block ends. -/
lemma terminateWith {t t' : Terminator}
    (hphase : ∀ D xs u u', phase.Allows D xs u u' → (∀ l l', Ready held l l' → D l l') →
      u = none ∧ u' = none ∧ Phase.ended.Allows D xs (some t) (some t')) :
    Emits ⟨held, phase⟩ (terminate t) (terminate t') (Leads ⟨held, .ended⟩) := by
  constructor
  intro start b b' hb
  obtain ⟨xs, D, hxs, halike, hD, hallow⟩ := hb.ops
  obtain ⟨hnone, hnone', hended⟩ := hphase D xs _ _ hallow hD
  have hrun : terminate t b = .ok () { b with terminator := some t } := by
    simp only [terminate, hnone]
    rfl
  have hrun' : terminate t' b' = .ok () { b' with terminator := some t' } := by
    simp only [terminate, hnone']
    rfl
  rw [hrun, hrun']
  exact ⟨_, rfl, hb.pc, hb.word, hb.slots, hb.asked, hb.valid, hb.valid', hb.types, hb.holds,
    hb.holds', hb.nodup, hb.nodup', hb.typed, xs, D, hxs, halike, hD, hended⟩

lemma stop : Emits ⟨held, .returned⟩ stop stop (Leads ⟨held, .ended⟩) :=
  terminateWith fun _ _ _ _ hallow _ => ⟨hallow.1, hallow.2.1, .stop, fun _ => hallow.2.2⟩

lemma goto (target : UInt64) : Emits ⟨held, .plain⟩ (goto target none) (goto target none)
    (Leads ⟨held, .ended⟩) :=
  terminateWith fun _ _ _ _ hallow _ => ⟨hallow.1, hallow.2.1, .always, fun h => by cases h⟩

lemma gotoWhen (target : UInt64) {c c' : Operand} (hc : c.Alike (Ready held) c') :
    Emits ⟨held, .plain⟩ (Compiler.goto target (some c)) (Compiler.goto target (some c'))
      (Leads ⟨held, .ended⟩) :=
  terminateWith fun _ _ _ _ hallow hD =>
    ⟨hallow.1, hallow.2.1, .branch (hc.mono hD), fun h => by cases h⟩

end Emits

end Dynarec.Compiler
