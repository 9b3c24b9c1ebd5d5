import Dynarec.Compiler.Arithmetic
import Dynarec.Interp.Basic
import Dynarec.Proofs.Compiler.Scratch
import Dynarec.Proofs.Interp.Ending

/-!
# What emitted operations compute

A piece of the compiler appends operations to the block under construction, wherever that block is in
its function and whichever scratch locals it gets. `Computes` says what these operations do when they
run: from every frame that is as one view says they lead to a frame that is as another view says. A
view lists the scratch locals that are held, with their values, beside the processor state and memory.
-/

namespace Dynarec.Compiler

open Interp (Frame Services runOp runOps)
open Ir (Op BinOp CmpOp Place Operand Local Ty Scratch)

variable {H α β : Type}

/-! ### Views -/

/-- A scratch local that is held, with its type, and with its value once it has been written. -/
structure Cell where
  loc : Local
  ty : Ty
  value : Option UInt64

/-- What is known at a point of a block: the held scratch locals, the processor state and memory. -/
structure View where
  cells : List Cell
  cpu : Cpu.State
  mem : Memory

/-- One more local is held. -/
abbrev View.hold (k : View) (l : Local) (ty : Ty) (value : UInt64) : View :=
  ⟨⟨l, ty, some value⟩ :: k.cells, k.cpu, k.mem⟩

/-- The cells are the locals that are handed out. -/
structure Owns (s : Scratch) (cells : List Cell) : Prop where
  valid : s.Valid
  holds : ∀ l, s.Holds l ↔ l ∈ cells.map Cell.loc
  nodup : (cells.map Cell.loc).Nodup
  typed : ∀ c ∈ cells, s.types[c.loc.id]? = some c.ty

/-- More locals may be declared. -/
def Declares (types types' : Array Ty) : Prop :=
  ∀ (i : Nat) ty, types[i]? = some ty → types'[i]? = some ty

lemma Declares.refl (types : Array Ty) : Declares types types := fun _ _ h => h

lemma Declares.trans {T T₁ T₂ : Array Ty} (h : Declares T T₁) (h₁ : Declares T₁ T₂) :
    Declares T T₂ := fun i ty hi => h₁ i ty (h i ty hi)

/-- A frame is as a view says. -/
structure View.Fits (k : View) (types : Array Ty) (f : Frame H) : Prop where
  cpu : f.machine.cpu = k.cpu
  mem : f.machine.mem = k.mem
  size : f.locals.size = types.size
  cells : ∀ c ∈ k.cells, ∀ v, c.value = some v → f.locals[c.loc.id]? = some v

/-- An operand has a value in a view. -/
inductive Has (k : View) : Operand → UInt64 → Prop where
  | imm (value : UInt64) : Has k (.imm value) value
  | place {p : Place} : (∀ l, p ≠ .scratch l) → Has k (.place p) (k.cpu.readPlace p)
  | scratch {l : Local} {ty : Ty} {v : UInt64} : ⟨l, ty, some v⟩ ∈ k.cells →
    Has k (.place (.scratch l)) v

variable {k k₁ k₂ : View} {cells : List Cell} {cpu : Cpu.State} {mem : Memory}
variable {x y z : Operand} {v w u : UInt64} {types : Array Ty}

/-- A held local has the value of its cell. -/
lemma Has.at {l : Local} {ty : Ty} (n : Nat) (h : k.cells[n]? = some ⟨l, ty, some v⟩) :
    Has k (.place (.scratch l)) v := .scratch (List.mem_of_getElem? h)

/-- Values stay when more locals are held. -/
lemma Has.up (more : List Cell) (h : Has ⟨cells, cpu, mem⟩ x v) :
    Has ⟨more ++ cells, cpu, mem⟩ x v := by
  cases h with
  | imm => exact .imm v
  | place hp => exact .place hp
  | scratch hl => exact .scratch (List.mem_append_right more hl)

/-- Reading an operand gives its value. -/
lemma Has.read (h : Has k x v) {f : Frame H} (hf : k.Fits types f) : f.read x = v := by
  cases h with
  | imm => rfl
  | @place p hp =>
    rw [← hf.cpu]
    cases p with
    | scratch l => exact absurd rfl (hp l)
    | _ => rfl
  | @scratch l ty v hl =>
    have hget := hf.cells _ hl v rfl
    change f.locals.getD l.id 0 = v
    rw [Array.getD_eq_getD_getElem?, hget]
    rfl

/-! ### Operations -/

/-- Running an operation in a view writes a place with a value. -/
def Writes (k : View) (dst : Place) (v : UInt64) (op : Op) : Prop :=
  ∀ (H : Type) (s : Services H) (types : Array Ty) (f : Frame H), k.Fits types f →
    runOp s types op f = .ok none (f.write types dst v)

section
variable {dst : Place} {width : Width}

lemma writes_mov (hx : Has k x v) : Writes k dst (v &&& width.mask) (.mov width dst x) := by
  intro H s types f hf
  rw [← hx.read hf]
  rfl

lemma writes_bin (op : BinOp) (hx : Has k x v) (hy : Has k y w) :
    Writes k dst (op.eval width v w) (.bin op width dst x y) := by
  intro H s types f hf
  rw [← hx.read hf, ← hy.read hf]
  rfl

lemma writes_cmp (op : CmpOp) (hx : Has k x v) (hy : Has k y w) :
    Writes k dst (op.eval width v w) (.cmp op width dst x y) := by
  intro H s types f hf
  rw [← hx.read hf, ← hy.read hf]
  rfl

lemma writes_extend (bits : Nat) (signed : Bool) (hx : Has k x v) :
    Writes k dst (Ir.extend v bits signed) (.extend bits signed dst x) := by
  intro H s types f hf
  rw [← hx.read hf]
  rfl

lemma writes_select (hx : Has k x v) (hy : Has k y w) (hz : Has k z u) :
    Writes k dst (if v != 0 then w else u) (.select dst x y z) := by
  intro H s types f hf
  rw [← hx.read hf, ← hy.read hf, ← hz.read hf]
  unfold runOp
  rw [EStateM.bind_ok (rfl : Interp.read x f = .ok (f.read x) f)]
  split <;> rfl

end

/-- Running operations leads from the frames of a view to those of another one. -/
def Takes (k k' : View) (types : Array Ty) (ops : List Op) : Prop :=
  ∀ {H : Type} (s : Services H) (T : Array Ty) (f : Frame H), Declares types T → k.Fits T f →
    ∃ f', runOps s T ops f = .ok none f' ∧ f'.machine.host = f.machine.host ∧ k'.Fits T f'

lemma takes_nil (k : View) (types : Array Ty) : Takes k k types [] := by
  intro H s T f _ hf
  exact ⟨f, rfl, rfl, hf⟩

lemma Takes.append {T T₁ : Array Ty} {xs ys : List Op} (h : Takes k k₁ T xs) (hT : Declares T T₁)
    (h₁ : Takes k₁ k₂ T₁ ys) : Takes k k₂ T₁ (xs ++ ys) := by
  intro H s U f hU hf
  obtain ⟨f₁, hrun, hhost, hf₁⟩ := h s U f (hT.trans hU) hf
  obtain ⟨f₂, hrun₂, hhost₂, hf₂⟩ := h₁ s U f₁ hU hf₁
  refine ⟨f₂, ?_, hhost₂.trans hhost, hf₂⟩
  rw [Interp.runOps_append, EStateM.bind_ok hrun]
  exact hrun₂

/-! ### Pieces of the compiler -/

/-- Wherever its locals are held, a piece of the compiler succeeds and appends operations that lead
from a view to another one. -/
structure Computes (k : View) (m : EmitM α) (Q : α → View → Prop) : Prop where
  run : ∀ b : Block, Owns b.scratch k.cells → ∃ a ops scratch k',
    m b = .ok a { b with ops := b.ops ++ ops, scratch := scratch } ∧ Q a k' ∧
      Owns scratch k'.cells ∧ Declares b.scratch.types scratch.types ∧
      Takes k k' scratch.types ops.toList

/-- The piece leads to a view. -/
def Arrives (k : View) : α → View → Prop := fun _ k' => k' = k

/-- The piece gives a new local with a value, held before the locals of a view. -/
def Supplies (k : View) (ty : Ty) (value : UInt64) : Local → View → Prop :=
  fun l k' => k' = k.hold l ty value

namespace Computes

variable {Q : β → View → Prop}

/-! ### Composition -/

lemma pure {P : α → View → Prop} {a : α} (h : P a k) : Computes k (pure a) P where
  run b hb := ⟨a, #[], b.scratch, k, rfl, h, hb, .refl _, takes_nil k _⟩

lemma bind {m : EmitM α} {f : α → EmitM β} {P : α → View → Prop} (hm : Computes k m P)
    (hf : ∀ a k', P a k' → Computes k' (f a) Q) : Computes k (m >>= f) Q where
  run b hb := by
    obtain ⟨a, ops, s, k₁, hrun, hP, hs, hT, htakes⟩ := hm.run b hb
    obtain ⟨c, ops₁, s₁, k₂, hrun₁, hQ, hs₁, hT₁, htakes₁⟩ :=
      (hf a k₁ hP).run { b with ops := b.ops ++ ops, scratch := s } hs
    refine ⟨c, ops ++ ops₁, s₁, k₂, ?_, hQ, hs₁, hT.trans hT₁, ?_⟩
    · rw [EStateM.bind_ok hrun, hrun₁, Array.append_assoc]
    · rw [Array.toList_append]
      exact htakes.append hT₁ htakes₁

lemma mono {m : EmitM β} {P : β → View → Prop} (hm : Computes k m P)
    (h : ∀ a k', P a k' → Q a k') : Computes k m Q where
  run b hb := by
    obtain ⟨a, ops, s, k₁, hrun, hP, hrest⟩ := hm.run b hb
    exact ⟨a, ops, s, k₁, hrun, h a k₁ hP, hrest⟩

/-- A piece that leads to a view is followed by another one. -/
lemma next {m : EmitM α} {f : α → EmitM β} (hm : Computes k m (Arrives k₁))
    (hf : ∀ a, Computes k₁ (f a) Q) : Computes k (m >>= f) Q := by
  apply bind hm
  rintro a _ rfl
  exact hf a

/-- A piece that gives a new local is followed by another one. -/
lemma supply {m : EmitM Local} {f : Local → EmitM β} {ty : Ty} (hm : Computes k m (Supplies k₁ ty v))
    (hf : ∀ l, Computes (k₁.hold l ty v) (f l) Q) : Computes k (m >>= f) Q := by
  apply bind hm
  rintro l _ rfl
  exact hf l

/-- Nothing happens. -/
lemma skip {a : α} : Computes k (Pure.pure a) (Arrives k) := pure rfl

/-! ### The steps of the compiler -/

/-- A new local, which has not been written. -/
lemma alloc (ty : Ty) {f : Local → EmitM β}
    (hf : ∀ l, Computes ⟨⟨l, ty, none⟩ :: cells, cpu, mem⟩ (f l) Q) :
    Computes ⟨cells, cpu, mem⟩ (alloc ty >>= f) Q := by
  refine bind (P := fun l k' => k' = ⟨⟨l, ty, none⟩ :: cells, cpu, mem⟩) ⟨fun b hb => ?_⟩ ?_
  · have halloc := Scratch.allocated_alloc hb.valid ty
    refine ⟨(b.scratch.alloc ty).1, #[], (b.scratch.alloc ty).2, _, rfl, rfl,
      ⟨halloc.valid, fun l => ?_, ?_, ?_⟩,
      halloc.types, ?_⟩
    · rw [halloc.holds, hb.holds, List.map_cons, List.mem_cons]
    · rw [List.map_cons, List.nodup_cons, ← hb.holds]
      exact ⟨halloc.fresh, hb.nodup⟩
    · intro c hc
      rcases List.mem_cons.1 hc with rfl | hc
      · exact halloc.typed
      · exact halloc.types _ _ (hb.typed c hc)
    · intro H s T f _ hfits
      refine ⟨f, rfl, rfl, hfits.cpu, hfits.mem, hfits.size, fun c hc v hv => ?_⟩
      rcases List.mem_cons.1 hc with rfl | hc
      · cases hv
      · exact hfits.cells c hc v hv
  · rintro l _ rfl
    exact hf l

/-- A local is given back. -/
lemma release (before : List Cell) {l : Local} {ty : Ty} {o : Option UInt64} {after : List Cell}
    (h : cells = before ++ ⟨l, ty, o⟩ :: after) :
    Computes ⟨cells, cpu, mem⟩ (release l) (Arrives ⟨before ++ after, cpu, mem⟩) where
  run b hb := by
    subst h
    have hnodup := hb.nodup
    have hholds := hb.holds
    simp only [List.map_append, List.map_cons] at hnodup hholds
    have hsub : ∀ x ∈ before ++ after, x ∈ before ++ ⟨l, ty, o⟩ :: after := by
      intro x hx
      simp only [List.mem_append, List.mem_cons] at hx ⊢
      exact hx.imp_right .inr
    have hheld : b.scratch.Holds l := (hb.holds l).2 (by simp)
    obtain ⟨s, hs, hreleased⟩ := Scratch.released_release hb.valid hheld
    refine ⟨(), #[], s, _, ?_, rfl, ⟨hreleased.valid, fun x => ?_, ?_, fun x hx => ?_⟩, ?_, ?_⟩
    · simp only [Compiler.release, hs]
      rfl
    · rw [List.map_append]
      exact hreleased.holds_iff hnodup hholds x
    · rw [List.map_append]
      exact (List.nodup_middle.1 hnodup).of_cons
    · rw [hreleased.types]
      exact hb.typed x (hsub x hx)
    · rw [hreleased.types]
      exact .refl _
    · intro H s T f _ hfits
      exact ⟨f, rfl, rfl, hfits.cpu, hfits.mem, hfits.size, fun x hx => hfits.cells x (hsub x hx)⟩

/-- Giving back locals, in order, leaves the cells of the others. -/
inductive Releases : List Local → List Cell → List Cell → Prop where
  | nil {cells : List Cell} : Releases [] cells cells
  | cons (before : List Cell) {l : Local} {ls : List Local} {ty : Ty} {o : Option UInt64}
      {cells after rest : List Cell} (h : cells = before ++ ⟨l, ty, o⟩ :: after)
      (hls : Releases ls (before ++ after) rest) : Releases (l :: ls) cells rest

/-- All of some neighbouring cells are given back. -/
lemma Releases.append (before : List Cell) {some after cells rest : List Cell} {ls : List Local}
    (h : cells = before ++ (some ++ after)) (hls : Releases ls (before ++ after) rest) :
    Releases (some.map Cell.loc ++ ls) cells rest := by
  induction some generalizing cells with
  | nil =>
    subst h
    exact hls
  | cons c some ih => exact .cons before h (ih rfl)

lemma releaseAll {ls : List Local} {rest : List Cell} (h : Releases ls cells rest) :
    Computes ⟨cells, cpu, mem⟩ (releaseAll ls) (Arrives ⟨rest, cpu, mem⟩) := by
  induction h with
  | nil => exact skip
  | cons before h _ ih => exact next (release before h) fun _ => ih

/-- An operation that leads from one view to another one is appended. -/
lemma emit {op : Op} (hop : ∀ s, Owns s k.cells → Owns s k₁.cells ∧ Takes k k₁ s.types [op]) :
    Computes k (emit op) (Arrives k₁) where
  run b hb := ⟨(), #[op], b.scratch, k₁, rfl, rfl, (hop _ hb).1, .refl _, (hop _ hb).2⟩

lemma runOps_single {op : Op} {s : Services H} {T : Array Ty} {f f' : Frame H}
    (h : runOp s T op f = .ok none f') : runOps s T [op] f = .ok none f' := by
  rw [runOps, EStateM.bind_ok h]
  rfl

/-- A held local is written. -/
lemma write (before : List Cell) {l : Local} {ty : Ty} {o : Option UInt64} {after : List Cell}
    {op : Op} (h : cells = before ++ ⟨l, ty, o⟩ :: after)
    (hop : Writes ⟨cells, cpu, mem⟩ (.scratch l) v op) (hv : v &&& ty.mask = v) :
    Computes ⟨cells, cpu, mem⟩ (Compiler.emit op)
      (Arrives ⟨before ++ ⟨l, ty, some v⟩ :: after, cpu, mem⟩) := by
  have hloc : (before ++ ⟨l, ty, some v⟩ :: after).map Cell.loc = cells.map Cell.loc := by
    simp [h]
  have hmem : (⟨l, ty, o⟩ : Cell) ∈ cells := by simp [h]
  have hold : ∀ c ∈ before ++ ⟨l, ty, some v⟩ :: after, c = ⟨l, ty, some v⟩ ∨
      c ∈ cells ∧ c ∈ before ++ after := by
    intro c hc
    simp only [h, List.mem_append, List.mem_cons] at hc ⊢
    tauto
  refine emit fun s hs => ⟨⟨hs.valid, fun x => by rw [hs.holds, hloc], hloc ▸ hs.nodup, ?_⟩, ?_⟩
  · intro c hc
    rcases hold c hc with rfl | ⟨hc, -⟩
    · exact (hs.typed ⟨l, ty, o⟩ hmem :)
    · exact hs.typed c hc
  · intro H services T f hT hf
    have hty : T[l.id]? = some ty := hT _ _ (hs.typed _ hmem)
    have hlt : l.id < f.locals.size := hf.size ▸ (Array.getElem?_eq_some_iff.1 hty).1
    have hstore : f.write T (.scratch l) v = ⟨f.machine, f.locals.setIfInBounds l.id v⟩ := by
      simp only [Frame.write, Array.getD_eq_getD_getElem?, hty, Option.getD_some, hv]
    have hnodup := hs.nodup
    rw [h, List.map_append, List.map_cons, List.nodup_middle, ← List.map_append,
      List.nodup_cons] at hnodup
    refine ⟨_, runOps_single (hop H services T f hf), by rw [hstore], ?_⟩
    rw [hstore]
    refine ⟨hf.cpu, hf.mem, by simpa using hf.size, fun c hc w hw => ?_⟩
    rcases hold c hc with rfl | ⟨hc, hrest⟩
    · cases hw
      rw [Array.getElem?_setIfInBounds, if_pos rfl, if_pos hlt]
    · -- the other locals are other ones, since each is held once
      have hne : l.id ≠ c.loc.id := by
        intro e
        obtain rfl := Scratch.eq_of_id e
        exact hnodup.1 (List.mem_map.2 ⟨c, hrest, rfl⟩)
      rw [Array.getElem?_setIfInBounds, if_neg hne]
      exact hf.cells c hc w hw

/-- A place of the processor is written. -/
lemma place {p : Place} {op : Op} (hp : ∀ l, p ≠ .scratch l) (hop : Writes ⟨cells, cpu, mem⟩ p v op) :
    Computes ⟨cells, cpu, mem⟩ (Compiler.emit op)
      (Arrives ⟨cells, cpu.writePlace p v, mem⟩) := by
  refine emit fun s hs => ⟨hs, ?_⟩
  intro H services T f _ hf
  have hstore : f.write T p v =
      ⟨⟨f.machine.cpu.writePlace p v, f.machine.mem, f.machine.host⟩, f.locals⟩ := by
    cases p with
    | scratch l => exact absurd rfl (hp l)
    | _ => rfl
  refine ⟨_, runOps_single (hop H services T f hf), by rw [hstore], ?_⟩
  rw [hstore]
  exact ⟨congrArg (Cpu.State.writePlace · p v) hf.cpu, hf.mem, hf.size, hf.cells⟩

end Computes

end Dynarec.Compiler
