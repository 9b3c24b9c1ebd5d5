import Dynarec.Proofs.Compiler.Instructions
import Dynarec.Proofs.Compiler.Pieces

/-!
# What emitted operations do that may fail

A load and a store stop with an error where memory ends. What is compiled after them is not run then, but it is
compiled all the same, so that the locals are given back in any case. `Attempts` says of a piece of the compiler
where its operations lead if all goes well, or how they stop.
-/

namespace Dynarec.Compiler

open Interp (Frame Services runOp runOps)
open Ir (Op Place Operand Local Ty)

variable {α β : Type} {k k₁ k₂ : View} {cells : List Cell} {cpu : Cpu.State} {mem : Memory}
  {x y : Operand} {v addr : UInt64} {size : AccessSize} {types : Array Ty}

/-! ### Stopping -/

/-- How operations stop: with an error of memory, leaving registers and memory. -/
structure Stop where
  error : Memory.Error
  cpu : Cpu.State
  mem : Memory

/-- Running operations stops, from every frame that is as a view says. -/
def Stops (k : View) (types : Array Ty) (ops : List Op) (stop : Stop) : Prop :=
  ∀ {H : Type} (s : Services H) (T : Array Ty) (f : Frame H), Declares types T → k.Fits T f →
    ∃ locals : Array UInt64,
      runOps s T ops f = .error (.error (.memory stop.error))
        ⟨⟨stop.cpu, stop.mem, f.machine.host⟩, locals⟩ ∧ locals.size = T.size

/-- Running operations leads from one view to another one, or it stops. -/
def Ends (k k' : View) (types : Array Ty) (ops : List Op) : Option Stop → Prop
  | none => Takes k k' types ops
  | some stop => Stops k types ops stop

lemma Stops.append {T T₁ : Array Ty} {stop : Stop} {xs : List Op} (h : Stops k T xs stop)
    (hT : Declares T T₁) (ys : List Op) : Stops k T₁ (xs ++ ys) stop := by
  intro H s U f hU hf
  obtain ⟨locals, hrun, hsize⟩ := h s U f (hT.trans hU) hf
  refine ⟨locals, ?_, hsize⟩
  rw [Interp.runOps_append, EStateM.bind_error hrun]

lemma Takes.stops {T T₁ : Array Ty} {stop : Stop} {xs ys : List Op} (h : Takes k k₁ T xs)
    (hT : Declares T T₁) (h₁ : Stops k₁ T₁ ys stop) : Stops k T₁ (xs ++ ys) stop := by
  intro H s U f hU hf
  obtain ⟨f₁, hrun, hhost, hf₁⟩ := h s U f (hT.trans hU) hf
  obtain ⟨locals, hrun₁, hsize⟩ := h₁ s U f₁ hU hf₁
  refine ⟨locals, ?_, hsize⟩
  rw [Interp.runOps_append, EStateM.bind_ok hrun, ← hhost]
  exact hrun₁

/-- What comes after operations that have stopped does not count. -/
lemma Ends.append {T T₁ : Array Ty} {stop stop₁ : Option Stop} {xs ys : List Op} (h : Ends k k₁ T xs stop)
    (hT : Declares T T₁) (h₁ : Ends k₁ k₂ T₁ ys stop₁) : Ends k k₂ T₁ (xs ++ ys) (stop <|> stop₁) := by
  cases stop with
  | some stop => exact Stops.append h hT ys
  | none =>
    cases stop₁ with
    | some stop₁ => exact Takes.stops h hT h₁
    | none => exact Takes.append h hT h₁

/-! ### Pieces of the compiler -/

/-- Wherever its locals are held, a piece of the compiler succeeds and appends operations that lead from a view to
another one, or stop. -/
structure Attempts (k : View) (m : EmitM α) (Q : α → View → Prop) (stop : Option Stop) : Prop where
  run : ∀ b : Block, Owns b.scratch k.cells → ∃ a ops scratch k',
    m b = .ok a { b with ops := b.ops ++ ops, scratch := scratch } ∧ Q a k' ∧
      Owns scratch k'.cells ∧ Declares b.scratch.types scratch.types ∧
      Ends k k' scratch.types ops.toList stop

lemma Computes.attempts {m : EmitM α} {Q : α → View → Prop} (h : Computes k m Q) : Attempts k m Q none :=
  ⟨h.run⟩

namespace Attempts

variable {Q : β → View → Prop} {stop stop₁ : Option Stop}

lemma bind {m : EmitM α} {f : α → EmitM β} {P : α → View → Prop} (hm : Attempts k m P stop)
    (hf : ∀ a k', P a k' → Attempts k' (f a) Q stop₁) : Attempts k (m >>= f) Q (stop <|> stop₁) where
  run b hb := by
    obtain ⟨a, ops, s, k₁, hrun, hP, hs, hT, hends⟩ := hm.run b hb
    obtain ⟨c, ops₁, s₁, k₂, hrun₁, hQ, hs₁, hT₁, hends₁⟩ :=
      (hf a k₁ hP).run { b with ops := b.ops ++ ops, scratch := s } hs
    refine ⟨c, ops ++ ops₁, s₁, k₂, ?_, hQ, hs₁, hT.trans hT₁, ?_⟩
    · rw [EStateM.bind_ok hrun, hrun₁, Array.append_assoc]
    · rw [Array.toList_append]
      exact hends.append hT₁ hends₁

/-- A piece that does not stop is followed by another one. -/
lemma after {m : EmitM α} {f : α → EmitM β} {P : α → View → Prop} (hm : Computes k m P)
    (hf : ∀ a k', P a k' → Attempts k' (f a) Q stop) : Attempts k (m >>= f) Q stop :=
  bind hm.attempts hf

/-- A piece is followed by another one that does not stop. -/
lemma before {m : EmitM α} {f : α → EmitM β} {P : α → View → Prop} (hm : Attempts k m P stop)
    (hf : ∀ a k', P a k' → Computes k' (f a) Q) : Attempts k (m >>= f) Q stop := by
  have h := bind hm fun a k' hP => (hf a k' hP).attempts
  cases stop <;> exact h

/-- A new local, which has not been written. -/
lemma alloc (ty : Ty) {f : Local → EmitM β}
    (hf : ∀ l, Attempts ⟨⟨l, ty, none⟩ :: cells, cpu, mem⟩ (f l) Q stop) :
    Attempts ⟨cells, cpu, mem⟩ (alloc ty >>= f) Q stop := by
  have halloc : Computes ⟨cells, cpu, mem⟩ (Compiler.alloc ty >>= Pure.pure)
      (fun l k' => k' = ⟨⟨l, ty, none⟩ :: cells, cpu, mem⟩) := .alloc ty fun l => .pure rfl
  rw [bind_pure] at halloc
  apply after halloc
  rintro l _ rfl
  exact hf l

/-- If the operations stop, where they would have led does not matter. -/
lemma instead {m : EmitM α} {stop : Stop} (h : Attempts k m (Arrives ⟨cells, cpu, mem⟩) (some stop))
    (cpu' : Cpu.State) (mem' : Memory) : Attempts k m (Arrives ⟨cells, cpu', mem'⟩) (some stop) where
  run b hb := by
    obtain ⟨a, ops, s, _, hrun, rfl, hs, hT, hends⟩ := h.run b hb
    exact ⟨a, ops, s, _, hrun, rfl, hs, hT, hends⟩

/-- An operation that leads from one view to another one, or stops, is appended. -/
lemma emit {op : Op} (hop : ∀ s, Owns s k.cells → Owns s k₁.cells ∧ Ends k k₁ s.types [op] stop) :
    Attempts k (emit op) (Arrives k₁) stop where
  run b hb := ⟨(), #[op], b.scratch, k₁, rfl, rfl, (hop _ hb).1, .refl _, (hop _ hb).2⟩

end Attempts

/-! ### Memory -/

/-- The value at an address, or zero where there is none. -/
def valueAt (mem : Memory) (addr : UInt64) (size : AccessSize) : UInt64 :=
  (mem.read addr size).toOption.getD 0

/-- A load stops where memory ends. -/
def loadStop (cpu : Cpu.State) (mem : Memory) (addr : UInt64) (size : AccessSize) : Option Stop :=
  match mem.read addr size with
  | .ok _ => none
  | .error e => some ⟨e, cpu, mem⟩

/-- A store stops where memory ends. -/
def storeStop (cpu : Cpu.State) (mem : Memory) (addr : UInt64) (size : AccessSize) (v : UInt64) :
    Option Stop :=
  match Memory.write addr size v mem with
  | .ok _ _ => none
  | .error e mem => some ⟨e, cpu, mem⟩

section
variable {e : Memory.Error} {mem' : Memory} {u : Unit}

lemma valueAt_of_ok (h : mem.read addr size = .ok v) : valueAt mem addr size = v := by
  rw [valueAt, h]
  rfl

lemma loadStop_of_ok (h : mem.read addr size = .ok v) : loadStop cpu mem addr size = none := by
  rw [loadStop, h]

lemma loadStop_of_error (h : mem.read addr size = .error e) :
    loadStop cpu mem addr size = some ⟨e, cpu, mem⟩ := by
  rw [loadStop, h]

lemma storeStop_of_ok (h : Memory.write addr size v mem = .ok u mem') :
    storeStop cpu mem addr size v = none := by
  rw [storeStop, h]

lemma storeStop_of_error (h : Memory.write addr size v mem = .error e mem') :
    storeStop cpu mem addr size v = some ⟨e, cpu, mem'⟩ := by
  rw [storeStop, h]

end

/-- The same locals are handed out when one of them is written. -/
lemma Owns.written {s : Ir.Scratch} {before after : List Cell} {l : Local} {ty : Ty} {o : Option UInt64}
    (hs : Owns s (before ++ ⟨l, ty, o⟩ :: after)) (v : UInt64) :
    Owns s (before ++ ⟨l, ty, some v⟩ :: after) where
  valid := hs.valid
  holds l' := by simpa using hs.holds l'
  nodup := by simpa using hs.nodup
  typed c hc := by
    rcases List.mem_append.1 hc with hc | hc
    · exact hs.typed c (List.mem_append_left _ hc)
    · rcases List.mem_cons.1 hc with rfl | hc
      · exact (hs.typed ⟨l, ty, o⟩ (by simp) :)
      · exact hs.typed c (List.mem_append_right _ (List.mem_cons_of_mem _ hc))

namespace Attempts

lemma runOps_single_error {H : Type} {op : Op} {s : Services H} {T : Array Ty} {f f' : Frame H}
    {e : Halt Error} (h : runOp s T op f = .error e f') : runOps s T [op] f = .error e f' := by
  rw [runOps, EStateM.bind_error h]

/-- A held local is loaded. -/
lemma load (before : List Cell) {l : Local} {o : Option UInt64} {after : List Cell}
    (h : cells = before ++ ⟨l, .i64, o⟩ :: after) (hx : Has ⟨cells, cpu, mem⟩ x addr) :
    Attempts ⟨cells, cpu, mem⟩ (Compiler.emit (.load size l x))
      (Arrives ⟨before ++ ⟨l, .i64, some (valueAt mem addr size)⟩ :: after, cpu, mem⟩)
      (loadStop cpu mem addr size) := by
  cases hread : mem.read addr size with
  | ok v =>
    rw [valueAt_of_ok hread, loadStop_of_ok hread]
    refine (Computes.write before h ?_ (Ty.and_mask_i64 v)).attempts
    intro H s types f hf
    have hload : Interp.load addr size f = .ok v f := by
      rw [Interp.load, hf.mem, hread]
    unfold runOp
    rw [EStateM.bind_ok (rfl : Interp.read x f = .ok (f.read x) f), hx.read hf, EStateM.bind_ok hload]
    rfl
  | error e =>
    rw [loadStop_of_error hread]
    refine emit fun s hs => ⟨(h ▸ hs :).written _, ?_⟩
    intro H services T f _ hf
    have hload : Interp.load addr size f = .error (.error (.memory e)) f := by
      rw [Interp.load, hf.mem, hread]
    refine ⟨f.locals, runOps_single_error ?_, hf.size⟩
    unfold runOp
    have hcpu : f.machine.cpu = cpu := hf.cpu
    have hmem : f.machine.mem = mem := hf.mem
    rw [EStateM.bind_ok (rfl : Interp.read x f = .ok (f.read x) f), hx.read hf, EStateM.bind_error hload,
      ← hcpu, ← hmem]

/-- A value is stored. -/
lemma store (hx : Has ⟨cells, cpu, mem⟩ x addr) (hy : Has ⟨cells, cpu, mem⟩ y v) :
    Attempts ⟨cells, cpu, mem⟩ (Compiler.emit (.store size x y))
      (Arrives ⟨cells, cpu, EStateM.after (Memory.write addr size v mem)⟩)
      (storeStop cpu mem addr size v) := by
  refine emit fun s hs => ⟨hs, ?_⟩
  have hrun : ∀ {H : Type} (services : Services H) (T : Array Ty) (f : Frame H),
      View.Fits ⟨cells, cpu, mem⟩ T f → runOp services T (.store size x y) f =
        (Interp.store addr size v >>= fun _ => Pure.pure none) f := by
    intro H services T f hf
    unfold runOp
    rw [EStateM.bind_ok (rfl : Interp.read x f = .ok (f.read x) f),
      EStateM.bind_ok (rfl : Interp.read y f = .ok (f.read y) f), hx.read hf, hy.read hf]
  cases hwrite : Memory.write addr size v mem with
  | ok u mem' =>
    rw [storeStop_of_ok hwrite]
    intro H services T f _ hf
    have hstore : Interp.store addr size v f =
        .ok () ⟨⟨f.machine.cpu, mem', f.machine.host⟩, f.locals⟩ := by
      rw [Interp.store, hf.mem, hwrite]
    refine ⟨_, Computes.runOps_single ((hrun services T f hf).trans (EStateM.bind_ok hstore)), rfl, ?_⟩
    exact ⟨hf.cpu, rfl, hf.size, hf.cells⟩
  | error e mem' =>
    rw [storeStop_of_error hwrite]
    intro H services T f _ hf
    have hstore : Interp.store addr size v f =
        .error (.error (.memory e)) ⟨⟨f.machine.cpu, mem', f.machine.host⟩, f.locals⟩ := by
      rw [Interp.store, hf.mem, hwrite]
    refine ⟨f.locals, runOps_single_error ((hrun services T f hf).trans ?_), hf.size⟩
    have hcpu : f.machine.cpu = cpu := hf.cpu
    rw [EStateM.bind_error hstore, ← hcpu]

end Attempts

end Dynarec.Compiler
