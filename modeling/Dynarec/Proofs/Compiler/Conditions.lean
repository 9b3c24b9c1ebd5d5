import Mathlib.Data.List.FinRange
import Dynarec.Proofs.Compiler.Instructions
import Dynarec.Proofs.Compiler.Pieces
import Dynarec.Proofs.Cpu.Conditions

/-!
# Emitted conditions

Whether a condition holds of the flags is computed in the middle of an instruction too, where scratch locals are
held. The operations leave these locals and the machine as they are, and the result is in one more local.
-/

namespace Dynarec.Compiler

open Interp (Frame Services runOps)
open Ir (Scratch)

variable {s : Scratch} {l : Ir.Local} {c : Cell} {H : Type}

/-- The held locals, with the values that they have. -/
def heldCells (s : Scratch) (locals : Array UInt64) : List Cell :=
  ((List.finRange s.types.size).filter fun i => s.held[i.val]? = some true).map fun i : Fin s.types.size =>
    ⟨⟨i.val⟩, s.types[i], locals[i.val]?⟩

lemma mem_heldCells {locals : Array UInt64} : c ∈ heldCells s locals ↔
    s.Holds c.loc ∧ s.types[c.loc.id]? = some c.ty ∧ c.value = locals[c.loc.id]? := by
  simp only [heldCells, List.mem_map, List.mem_filter, List.mem_finRange, true_and, decide_eq_true_iff]
  constructor
  · rintro ⟨i, hi, rfl⟩
    exact ⟨hi, Array.getElem?_eq_getElem i.isLt, rfl⟩
  · rintro ⟨hheld, hty, hvalue⟩
    obtain ⟨hlt, hty⟩ := Array.getElem?_eq_some_iff.1 hty
    exact ⟨⟨c.loc.id, hlt⟩, hheld, by simp only [Fin.getElem_fin, hty, ← hvalue]⟩

/-- The held locals are those of a valid allocation. -/
lemma owns_heldCells (hs : s.Valid) (locals : Array UInt64) : Owns s (heldCells s locals) where
  valid := hs
  holds l := by
    constructor
    · intro h
      have hlt := hs.lt_of_holds h
      refine List.mem_map.2 ⟨⟨l, s.types[l.id], locals[l.id]?⟩, ?_, rfl⟩
      exact mem_heldCells.2 ⟨h, Array.getElem?_eq_getElem _, rfl⟩
    · intro h
      obtain ⟨c, hc, rfl⟩ := List.mem_map.1 h
      exact (mem_heldCells.1 hc).1
  nodup := by
    rw [heldCells, List.map_map]
    refine ((List.nodup_finRange _).filter _).map fun i j h => ?_
    exact Fin.ext (congrArg Ir.Local.id h)
  typed c hc := (mem_heldCells.1 hc).2.1

lemma fits_heldCells {types : Array Ir.Ty} {f : Frame H} (hsize : f.locals.size = types.size) :
    View.Fits ⟨heldCells s f.locals, f.machine.cpu, f.machine.mem⟩ types f where
  cpu := rfl
  mem := rfl
  size := hsize
  cells c hc v hv := by rw [← (mem_heldCells.1 hc).2.2, hv]

/-- What a piece of the compiler gives that computes a value and changes nothing: in every block it appends
operations that write the value to a new local and leave the machine and the held locals as they are. -/
def Evaluates (m : EmitM Ir.Local) (value : Cpu.State → UInt64) : Prop :=
  ∀ b : Block, b.scratch.Valid → ∃ l ops scratch,
    m b = .ok l { b with ops := b.ops ++ ops, scratch := scratch } ∧
    scratch.Valid ∧ ¬ b.scratch.Holds l ∧ (∀ x, scratch.Holds x ↔ x = l ∨ b.scratch.Holds x) ∧
    Declares b.scratch.types scratch.types ∧
    ∀ {H : Type} (services : Services H) (types : Array Ir.Ty) (f : Frame H),
      Declares scratch.types types → f.locals.size = types.size → ∃ locals : Array UInt64,
        runOps services types ops.toList f = .ok none ⟨f.machine, locals⟩ ∧ locals.size = types.size ∧
        locals[l.id]? = some (value f.machine.cpu) ∧
        ∀ x, b.scratch.Holds x → locals[x.id]? = f.locals[x.id]?

lemma evaluates_of_computes {m : EmitM Ir.Local} {ty : Ir.Ty} {value : Cpu.State → UInt64}
    (h : ∀ k : View, Computes k m (Supplies k ty (value k.cpu))) : Evaluates m value := by
  intro b hb
  obtain ⟨l, ops, scratch, hrun, hall⟩ := exists_appended (m := m) (b := b)
    (R := fun (locals, cpu, mem) l ops scratch =>
      let k : View := ⟨heldCells b.scratch locals, cpu, mem⟩
      Owns scratch (k.hold l ty (value cpu)).cells ∧ Declares b.scratch.types scratch.types ∧
        Takes k (k.hold l ty (value cpu)) scratch.types ops.toList)
    (#[], .reset, ⟨.empty⟩) fun (locals, cpu, mem) => by
    obtain ⟨l, ops, scratch, _, hrun, rfl, hparts⟩ :=
      (h ⟨heldCells b.scratch locals, cpu, mem⟩).run b (owns_heldCells hb locals)
    exact ⟨l, ops, scratch, hrun, hparts⟩
  obtain ⟨hs, hdeclares, -⟩ := hall (#[], .reset, ⟨.empty⟩)
  have hold := owns_heldCells hb #[]
  refine ⟨l, ops, scratch, hrun, hs.valid, ?_, fun x => ?_, hdeclares, ?_⟩
  · rw [hold.holds]
    exact (List.nodup_cons.1 hs.nodup).1
  · rw [hs.holds, hold.holds, List.map_cons, List.mem_cons]
  · intro H services types f hT hsize
    obtain ⟨-, -, htakes⟩ := hall (f.locals, f.machine.cpu, f.machine.mem)
    obtain ⟨⟨⟨cpu, mem, host⟩, locals⟩, hruns, hhost, hcpu, hmem, hsize', hcells⟩ :=
      htakes services types f hT (fits_heldCells hsize)
    dsimp only [View.hold] at hcpu hmem hhost hsize' hcells
    subst hcpu hmem hhost
    refine ⟨locals, hruns, hsize', hcells _ List.mem_cons_self _ rfl, fun x hx => ?_⟩
    -- a held local is declared, so it has a value
    have hlt : x.id < b.scratch.types.size := hb.lt_of_holds hx
    have hlt' : x.id < f.locals.size := by
      have := (Array.getElem?_eq_some_iff.1
        (hT _ _ (hdeclares _ _ (Array.getElem?_eq_getElem hlt)))).1
      omega
    have hmem : (⟨x, b.scratch.types[x.id], f.locals[x.id]?⟩ : Cell) ∈ heldCells b.scratch f.locals :=
      mem_heldCells.2 ⟨hx, Array.getElem?_eq_getElem hlt, rfl⟩
    rw [Array.getElem?_eq_getElem hlt'] at hmem ⊢
    exact hcells _ (List.mem_cons_of_mem _ hmem) _ rfl

lemma evaluates_condHolds (cond : Cpu.Cond) :
    Evaluates (condHolds cond) fun cpu => (cond.holds cpu.readNzcv).toUInt64 :=
  evaluates_of_computes fun _ => .condHolds cond

/-- A sum with carry gives the sum of the numbers that its operands denote, and its flags tell the top bit of the
result and whether it is zero, whether the sum is above every number of the width, and whether the sum of the
integers is not the one that the result denotes. After a difference, the conditions tell the equality and the
orders of the numbers and of the integers. The operations that a condition is compiled to compute it of the
flags of the machine that runs them. -/
theorem flags_and_conditions_exact :
    (∀ (w : Width) (x y : UInt64) (c : Bool), Cpu.SumExact w x y c) ∧
    (∀ (op : Ir.CmpOp) (w : Width) (x y : UInt64),
      op.cond.holds (Cpu.subtract x y w).2 = true ↔ op.Relates w x y) ∧
    ∀ cond : Cpu.Cond, Evaluates (condHolds cond) fun cpu => if cond.holds cpu.readNzcv then 1 else 0 := by
  refine ⟨Cpu.sumExact, Cpu.holds_subtract, fun cond => ?_⟩
  have heval := evaluates_condHolds cond
  have hvalue : ∀ b : Bool, b.toUInt64 = if b then 1 else 0 := fun b => by cases b <;> rfl
  simpa only [hvalue] using heval

/-- The least number of 32 bits is below one as an integer but above it as a number, whatever is in the high
bits, and a condition is compiled where no local is held. -/
theorem flags_and_conditions_exact_least :
    Cpu.Cond.lt.holds (Cpu.subtract 0x780000000 1 .w32).2 = true ∧
    Cpu.Cond.hi.holds (Cpu.subtract 0x780000000 1 .w32).2 = true ∧
    ∃ l b, condHolds .lt (.start 0 .empty (.ofSize 4)) = .ok l b := by
  have hlt : Ir.CmpOp.ltS.Relates .w32 0x780000000 1 := by unfold Ir.CmpOp.Relates; decide
  have hhi : Ir.CmpOp.gtU.Relates .w32 0x780000000 1 := by unfold Ir.CmpOp.Relates; decide
  refine ⟨(flags_and_conditions_exact.2.1 ..).2 hlt, (flags_and_conditions_exact.2.1 ..).2 hhi, ?_⟩
  obtain ⟨l, _, _, hrun, -⟩ := flags_and_conditions_exact.2.2 .lt (.start 0 .empty (.ofSize 4)) Scratch.valid_empty
  exact ⟨l, _, hrun⟩

end Dynarec.Compiler
