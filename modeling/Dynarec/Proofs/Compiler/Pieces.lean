import Dynarec.Proofs.Compiler.Computes
import Dynarec.Proofs.Compiler.Emitters
import Dynarec.Proofs.Cpu.Registers
import Dynarec.Proofs.Ir.Addition

/-!
# What the pieces of the compiler compute

Moves, operators and comparisons, sums with their flags, conditions, and shifted and extended operands.
-/

namespace Dynarec.Compiler

open Ir (Op BinOp CmpOp Place Operand Local Ty)

variable {cells : List Cell} {cpu : Cpu.State} {mem : Memory}
variable {k : View} {x y c : Operand} {v w u : UInt64} {b d : Bool} {width : Width}

/-! ### Registers -/

lemma has_gpr (k : View) (n : Nat) : Has k (gpr n) (k.cpu.readX n .w64) := by
  unfold gpr
  split
  · next h =>
    rw [k.cpu.readX_of_le (Nat.le_of_eq h.symm)]
    exact .imm 0
  · exact .place (p := .x n) nofun

lemma writePlace_placeOrSp (n : Nat) (v : UInt64) :
    cpu.writePlace (placeOrSp n) v = cpu.writeXOrSp n .w64 v := by
  unfold placeOrSp Cpu.State.writeXOrSp
  rw [Width.and_mask_w64]
  split <;> rfl

/-- The value of an operator is cut to its width. -/
lemma eval_and_mask (op : BinOp) : op.eval width v w &&& width.mask = op.eval width v w :=
  width.and_mask_mask _

lemma has_gprOrSp (k : View) (n : Nat) : Has k (gprOrSp n) (k.cpu.readXOrSp n) := by
  have hread : k.cpu.readPlace (placeOrSp n) = k.cpu.readXOrSp n := by
    unfold placeOrSp Cpu.State.readXOrSp
    split <;> rfl
  rw [← hread]
  exact .place (placeOrSp_ne n)

/-- A register that is not shifted. -/
lemma shiftOp_zero (width : Width) (v : UInt64) (shift : Nat) :
    (shiftOp shift).eval width v (UInt64.ofNat 0) = v &&& width.mask := by
  have hpos := width.bits_pos
  apply Bits.eq_of_bit
  intro i hi
  rw [Bits.bit_and, Bits.bit_mask]
  unfold shiftOp
  split
  · rw [BinOp.bit_shl hpos]
    simp [Bool.and_comm]
  · rw [BinOp.bit_shrU hpos]
    simp [Bool.and_comm]
  · rw [BinOp.bit_shrS hpos]
    by_cases hlt : i < width.bits
    · simp [hlt, Nat.min_eq_left (Nat.le_sub_one_of_lt hlt)]
    · simp [hlt]
  · rw [BinOp.bit_rotR hpos]
    by_cases hlt : i < width.bits
    · simp [hlt, Nat.mod_eq_of_lt hlt]
    · simp [hlt]

lemma has_flag (k : View) (f : Cpu.Flag) : Has k (.place (.flag f)) (k.cpu.readFlag f).toUInt64 :=
  .place (p := .flag f) nofun

lemma has_true (k : View) : Has k (.imm 1) true.toUInt64 := .imm 1

namespace Computes

/-! ### Operations -/

/-- A held local is written with the value of an operator. -/
lemma bin (before : List Cell) {l : Local} {o : Option UInt64} {after : List Cell} {op : BinOp}
    (h : cells = before ++ ⟨l, .i64, o⟩ :: after) (hx : Has ⟨cells, cpu, mem⟩ x v)
    (hy : Has ⟨cells, cpu, mem⟩ y w) : Computes ⟨cells, cpu, mem⟩ (bin l op width x y)
      (Arrives ⟨before ++ ⟨l, .i64, some (op.eval width v w)⟩ :: after, cpu, mem⟩) :=
  write before h (writes_bin op hx hy) (Ty.and_mask_i64 _)

/-- A held local is written with the value of a comparison. -/
lemma cmp (before : List Cell) {l : Local} {ty : Ty} {o : Option UInt64} {after : List Cell}
    {op : CmpOp} (h : cells = before ++ ⟨l, ty, o⟩ :: after) (hx : Has ⟨cells, cpu, mem⟩ x v)
    (hy : Has ⟨cells, cpu, mem⟩ y w) : Computes ⟨cells, cpu, mem⟩ (cmp l op width x y)
      (Arrives ⟨before ++ ⟨l, ty, some (op.holds width v w).toUInt64⟩ :: after, cpu, mem⟩) :=
  write before h (writes_cmp op hx hy) (Ty.toUInt64_and_mask ty _)

/-- A held local is written with a truth value formed from others. -/
lemma truth (before : List Cell) {l : Local} {ty : Ty} {o : Option UInt64} {after : List Cell}
    {op : BinOp} {r : Bool} (h : cells = before ++ ⟨l, ty, o⟩ :: after)
    (hx : Has ⟨cells, cpu, mem⟩ x b.toUInt64) (hy : Has ⟨cells, cpu, mem⟩ y d.toUInt64)
    (hop : op.eval .w64 b.toUInt64 d.toUInt64 = r.toUInt64) :
    Computes ⟨cells, cpu, mem⟩ (Compiler.bin l op .w64 x y)
      (Arrives ⟨before ++ ⟨l, ty, some r.toUInt64⟩ :: after, cpu, mem⟩) :=
  write before h (hop ▸ writes_bin op hx hy) (Ty.toUInt64_and_mask ty _)

/-- A place of the processor is written with the value of an operator. -/
lemma binTo {p : Place} {op : BinOp} (hp : ∀ l, p ≠ .scratch l) (hx : Has ⟨cells, cpu, mem⟩ x v)
    (hy : Has ⟨cells, cpu, mem⟩ y w) : Computes ⟨cells, cpu, mem⟩ (Compiler.bin p op width x y)
      (Arrives ⟨cells, cpu.writePlace p (op.eval width v w), mem⟩) :=
  place hp (writes_bin op hx hy)

/-- A held local is written with a truth value. -/
lemma moveTruth (before : List Cell) {l : Local} {ty : Ty} {o : Option UInt64} {after : List Cell}
    (h : cells = before ++ ⟨l, ty, o⟩ :: after) (hx : Has ⟨cells, cpu, mem⟩ x b.toUInt64) :
    Computes ⟨cells, cpu, mem⟩ (move (some l) x width)
      (Arrives ⟨before ++ ⟨l, ty, some b.toUInt64⟩ :: after, cpu, mem⟩) := by
  apply write before h
  · rw [← width.toUInt64_and_mask]
    exact writes_mov hx
  · exact Ty.toUInt64_and_mask ty _

/-- A register is written with a value cut to a width. -/
lemma moveX (n : Nat) (hx : Has ⟨cells, cpu, mem⟩ x v) : Computes ⟨cells, cpu, mem⟩
    (move (some (.x n)) x width) (Arrives ⟨cells, cpu.writeX n width v, mem⟩) := by
  rw [← cpu.writeX_and_mask]
  exact place (p := .x n) nofun (writes_mov hx)

/-- A destination is written with a value cut to a width. -/
lemma moveDest (n : Nat) (hx : Has ⟨cells, cpu, mem⟩ x v) : Computes ⟨cells, cpu, mem⟩
    (move (dest n) x width) (Arrives ⟨cells, cpu.writeX n width v, mem⟩) := by
  unfold dest
  split
  · next h =>
    rw [cpu.writeX_of_le (Nat.le_of_eq h.symm)]
    exact skip
  · exact moveX n hx

/-- A register or the stack pointer is written with a value cut to a width. -/
lemma moveOrSp (n : Nat) (hx : Has ⟨cells, cpu, mem⟩ x v) : Computes ⟨cells, cpu, mem⟩
    (move (some (placeOrSp n)) x width) (Arrives ⟨cells, cpu.writeXOrSp n width v, mem⟩) := by
  rw [← cpu.writeXOrSp_and_mask, ← writePlace_placeOrSp]
  exact place (placeOrSp_ne n) (writes_mov hx)

/-- A register or the stack pointer is written with the value of an operator. -/
lemma binOrSp (n : Nat) {op : BinOp} (hx : Has ⟨cells, cpu, mem⟩ x v)
    (hy : Has ⟨cells, cpu, mem⟩ y w) :
    Computes ⟨cells, cpu, mem⟩ (Compiler.bin (placeOrSp n) op width x y)
      (Arrives ⟨cells, cpu.writeXOrSp n width (op.eval width v w), mem⟩) := by
  rw [← cpu.writeXOrSp_and_mask, ← writePlace_placeOrSp, eval_and_mask]
  exact binTo (placeOrSp_ne n) hx hy

/-- A destination is written with the value of an operator. -/
lemma binDest (n : Nat) {op : BinOp} (hx : Has ⟨cells, cpu, mem⟩ x v)
    (hy : Has ⟨cells, cpu, mem⟩ y w) :
    Computes ⟨cells, cpu, mem⟩ (Compiler.bin (.x n) op width x y)
      (Arrives ⟨cells, cpu.writeX n width (op.eval width v w), mem⟩) := by
  rw [← cpu.writeX_and_mask, eval_and_mask]
  exact binTo (p := .x n) nofun hx hy

/-- A held local is written with the sign of a value. -/
lemma sign (before : List Cell) {l : Local} {ty : Ty} {o : Option UInt64} {after : List Cell}
    (h : cells = before ++ ⟨l, ty, o⟩ :: after) (hx : Has ⟨cells, cpu, mem⟩ x v) :
    Computes ⟨cells, cpu, mem⟩ (Compiler.bin l .shrU width x (const (width.bits - 1))) (Arrives
      ⟨before ++ ⟨l, ty, some (Bits.bit v (width.bits - 1)).toUInt64⟩ :: after, cpu, mem⟩) := by
  apply write before h
  · rw [← Ir.shrU_sign]
    exact writes_bin _ hx (.imm _)
  · exact Ty.toUInt64_and_mask ty _

/-! ### Flags -/

/-- A flag is set when a truth value is true. -/
lemma flag {f : Cpu.Flag} {op : Op} (h : Writes ⟨cells, cpu, mem⟩ (.flag f) b.toUInt64 op) :
    Computes ⟨cells, cpu, mem⟩ (Compiler.emit op) (Arrives ⟨cells, cpu.writeFlag f b, mem⟩) := by
  have hne : (b.toUInt64 != 0) = b := by cases b <;> rfl
  have hplace := place (p := .flag f) nofun h
  rwa [show cpu.writePlace (.flag f) b.toUInt64 = cpu.writeFlag f b from
    congrArg (cpu.writeFlag f) hne] at hplace

/-- A flag is set when exactly one of two truth values is true. -/
lemma xorFlag {f : Cpu.Flag} (hx : Has ⟨cells, cpu, mem⟩ x b.toUInt64)
    (hy : Has ⟨cells, cpu, mem⟩ y d.toUInt64) : Computes ⟨cells, cpu, mem⟩
      (Compiler.bin (.flag f) .xor .w64 x y) (Arrives ⟨cells, cpu.writeFlag f (b ^^ d), mem⟩) := by
  rw [← Ir.xor_toUInt64]
  exact binTo nofun hx hy

/-- Set N and Z. -/
lemma setNz (hx : ∀ cpu, Has ⟨cells, cpu, mem⟩ x v) : Computes ⟨cells, cpu, mem⟩ (setNz width x)
    (Arrives ⟨cells, (cpu.writeFlag .n (Bits.bit v (width.bits - 1))).writeFlag .z
      (v &&& width.mask == 0), mem⟩) := by
  apply next
  · apply flag
    rw [← Ir.shrU_sign]
    exact writes_bin _ (hx cpu) (.imm _)
  · intro _
    apply flag
    have hz : CmpOp.eval .eq width v 0 = (v &&& width.mask == 0).toUInt64 := by
      rw [CmpOp.eval, CmpOp.holds, width.zero_and_mask]
    rw [← hz]
    exact writes_cmp .eq (hx _) (.imm 0)

/-! ### Sums -/

/-- The sum of two values and a carry is in a new local. -/
lemma addCarry (hx : Has ⟨cells, cpu, mem⟩ x v) (hy : Has ⟨cells, cpu, mem⟩ y w)
    (hc : Has ⟨cells, cpu, mem⟩ c b.toUInt64) :
    Computes ⟨cells, cpu, mem⟩ (addCarry width x y c)
      (Supplies ⟨cells, cpu, mem⟩ .i64 (Cpu.addWithCarry v w b width).1) := by
  refine .alloc _ fun first => .alloc _ fun result => ?_
  refine .next (bin [_] rfl (hx.up [_, _]) (hy.up [_, _])) fun _ => ?_
  refine .next (bin [] rfl (.at 1 rfl) (hc.up [_, _])) fun _ => ?_
  refine .next (release [_] rfl) fun _ => ?_
  refine .pure ?_
  rw [Ir.addWithCarry_fst]
  rfl

/-- An operand is a carry: a constant, or the flag, which an addition that sets the flags changes
before it has read the carry for the last time. -/
inductive IsCarry (cpu : Cpu.State) (b : Bool) : Operand → Prop where
  | const : IsCarry cpu b (.imm b.toUInt64)
  | flag : cpu.readFlag .c = b → IsCarry cpu b (.place (.flag .c))

lemma IsCarry.has (h : IsCarry cpu b c) : Has ⟨cells, cpu, mem⟩ c b.toUInt64 := by
  cases h with
  | const => exact .imm _
  | flag h =>
    rw [← h]
    exact .place (p := .flag .c) nofun

/-- Whatever becomes of the flags, a carry is a truth value. -/
lemma IsCarry.exists_has (h : IsCarry cpu b c) (k : View) : ∃ d : Bool, Has k c d.toUInt64 := by
  cases h with
  | const => exact ⟨b, .imm _⟩
  | flag h => exact ⟨k.cpu.readFlag .c, .place (p := .flag .c) nofun⟩

/-- The sum of two values and a carry is in a new local, and the flags are set. -/
lemma addCarryFlags (hx : Has ⟨cells, cpu, mem⟩ x v) (hy : Has ⟨cells, cpu, mem⟩ y w)
    (hc : IsCarry cpu b c) : Computes ⟨cells, cpu, mem⟩ (addCarryFlags width x y c)
      (Supplies ⟨cells, cpu.writeNzcv (Cpu.addWithCarry v w b width).2, mem⟩ .i64
        (Cpu.addWithCarry v w b width).1) := by
  refine .alloc _ fun first => .alloc _ fun result => ?_
  refine .next (bin [_] rfl (hx.up [_, _]) (hy.up [_, _])) fun _ => ?_
  refine .next (bin [] rfl (.at 1 rfl) (hc.has.up [_, _])) fun _ => ?_
  refine .alloc _ fun c' => .alloc _ fun v' => .alloc _ fun a => .alloc _ fun t => ?_
  -- the carry and the overflow of the first sum
  refine .next (cmp [_, _, _] rfl (.at 5 rfl) (hx.up [_, _, _, _, _, _])) fun _ => ?_
  refine .next (bin [_] rfl (hx.up [_, _, _, _, _, _]) (.at 5 rfl)) fun _ => ?_
  refine .next (bin [] rfl (hy.up [_, _, _, _, _, _]) (.at 5 rfl)) fun _ => ?_
  refine .next (bin [_] rfl (.at 1 rfl) (.at 0 rfl)) fun _ => ?_
  refine .next (sign [_, _] rfl (.at 1 rfl)) fun _ => ?_
  -- those of the second one
  refine .next (cmp [_] rfl (.at 4 rfl) (.at 5 rfl)) fun _ => ?_
  refine .next (xorFlag (.at 3 rfl) (.at 1 rfl)) fun _ => ?_
  refine .next (bin [_] rfl (.at 5 rfl) (.at 4 rfl)) fun _ => ?_
  obtain ⟨after, hafter⟩ := hc.exists_has _
  refine .next (bin [] rfl hafter (.at 4 rfl)) fun _ => ?_
  refine .next (bin [_] rfl (.at 1 rfl) (.at 0 rfl)) fun _ => ?_
  refine .next (sign [_] rfl (.at 1 rfl)) fun _ => ?_
  refine .next (xorFlag (.at 2 rfl) (.at 1 rfl)) fun _ => ?_
  refine .next (setNz fun _ => .at 4 rfl) fun _ => ?_
  -- every local but the result is given back
  refine .next (releaseAll (.cons [_, _, _, _, _] rfl (.cons [_, _, _] rfl (.cons [_, _] rfl
    (.cons [_] rfl (.cons [] rfl .nil)))))) fun _ => .pure ?_
  rw [Supplies, ← cpu.writeFlag_nzcv, Ir.addWithCarry_n, Ir.addWithCarry_c, Ir.addWithCarry_v,
    Ir.addWithCarry_z, Ir.addWithCarry_fst]
  simp only [Ir.overflow_sign, Ir.bit_toUInt64_sign, Bool.false_xor]
  rfl

/-! ### Conditions -/

/-- A held local is written with what a condition says without the bit that inverts it. -/
lemma testFlags {out : Local} {o : Option UInt64} (cond : Cpu.Cond) :
    Computes ⟨⟨out, .i32, o⟩ :: cells, cpu, mem⟩ (testFlags out cond) (Arrives
      ⟨⟨out, .i32, some (cond.plain cpu.readNzcv).toUInt64⟩ :: cells, cpu, mem⟩) := by
  cases cond with
  | eq | ne => exact moveTruth [] rfl (has_flag _ .z)
  | cs | cc => exact moveTruth [] rfl (has_flag _ .c)
  | mi | pl => exact moveTruth [] rfl (has_flag _ .n)
  | vs | vc => exact moveTruth [] rfl (has_flag _ .v)
  | hi | ls =>
    refine .next (truth [] rfl (has_flag _ .z) (has_true _) (Ir.eval_xor_toUInt64 _ _)) fun _ => ?_
    exact truth [] rfl (.at 0 rfl) (has_flag _ .c) (Ir.eval_and_toUInt64 _ _)
  | ge | lt =>
    rw [Cpu.Cond.plain, ← Ir.holds_eq_toUInt64]
    exact cmp [] rfl (has_flag _ .n) (has_flag _ .v)
  | gt | le =>
    refine .alloc _ fun t => ?_
    refine .next (cmp [_] rfl (has_flag _ .n) (has_flag _ .v)) fun _ => ?_
    refine .next (truth [] rfl (has_flag _ .z) (has_true _) (Ir.eval_xor_toUInt64 _ _)) fun _ => ?_
    rw [Ir.holds_eq_toUInt64]
    refine .next (truth [_] rfl (.at 1 rfl) (.at 0 rfl) (Ir.eval_and_toUInt64 _ _)) fun _ => ?_
    exact release [] rfl
  | al | nv => exact moveTruth [] rfl (has_true _)

/-- Whether a condition holds of the flags is in a new local. -/
lemma condHolds (cond : Cpu.Cond) : Computes ⟨cells, cpu, mem⟩ (condHolds cond)
    (Supplies ⟨cells, cpu, mem⟩ .i32 (cond.holds cpu.readNzcv).toUInt64) := by
  refine .alloc _ fun out => .next (testFlags cond) fun _ => ?_
  rw [cond.holds_eq_plain]
  split
  · next h =>
    rw [decide_eq_true h]
    refine .next (truth [] rfl (.at 0 rfl) (has_true _) (Ir.eval_xor_toUInt64 _ _)) fun _ => ?_
    exact .pure rfl
  · next h =>
    rw [decide_eq_false h, Bool.xor_false]
    exact .pure rfl

/-! ### Operands of an instruction -/

/-- The piece gives an operand that is as a value below a width, with the locals that it holds. -/
def Provides (k : View) (width : Width) (value : UInt64) : Operand × List Local → View → Prop :=
  fun (y, ls) k' => ∃ (held : List Cell) (w : UInt64), held.map Cell.loc = ls ∧
    k' = ⟨held ++ k.cells, k.cpu, k.mem⟩ ∧ Has k' y w ∧ w &&& width.mask = value &&& width.mask

/-- A value, or its complement. -/
lemma complementIf (inverted : Bool) (hy : Has ⟨cells, cpu, mem⟩ y w) :
    Computes ⟨cells, cpu, mem⟩ (complementIf inverted width y)
      (Provides ⟨cells, cpu, mem⟩ width (if inverted then ~~~w else w)) := by
  cases inverted with
  | false => exact .pure ⟨[], w, rfl, rfl, hy, rfl⟩
  | true =>
    refine .bind (P := Supplies ⟨cells, cpu, mem⟩ .i64 (~~~w &&& width.mask)) ?_ ?_
    · refine .alloc _ fun l => .next (bin [] rfl (hy.up [_]) (.imm _)) fun _ => .pure ?_
      rw [Ir.eval_xor_ones]
      rfl
    · rintro l _ rfl
      exact .pure ⟨[_], _, rfl, rfl, .at 0 rfl, width.and_mask_mask _⟩

/-- A shifted register. -/
lemma shifted (rm shift amount : Nat) : Computes ⟨cells, cpu, mem⟩ (shifted width rm shift amount)
    (Provides ⟨cells, cpu, mem⟩ width
      ((shiftOp shift).eval width (cpu.readX rm .w64) (UInt64.ofNat amount))) := by
  unfold Compiler.shifted
  split
  · next h =>
    subst h
    refine .pure ⟨[], _, rfl, rfl, has_gpr _ rm, ?_⟩
    rw [shiftOp_zero, width.and_mask_mask]
  · refine .alloc _ fun l => .next (bin [] rfl ((has_gpr ⟨cells, cpu, mem⟩ rm).up [_]) (.imm _)) fun _ => ?_
    exact .pure ⟨[_], _, rfl, rfl, .at 0 rfl, rfl⟩

/-- An extended register, shifted left. -/
lemma extended (hx : Has ⟨cells, cpu, mem⟩ x v) (option amount : Nat) :
    Computes ⟨cells, cpu, mem⟩ (extended x option amount) (Supplies ⟨cells, cpu, mem⟩ .i64
      (BinOp.eval .shl .w64 (Ir.extend v (8 <<< (option % 4)) (4 ≤ option % 8))
        (UInt64.ofNat amount))) := by
  refine .alloc _ fun l => ?_
  refine .next (write [] rfl (writes_extend _ _ (hx.up [_])) (Ty.and_mask_i64 _)) fun _ => ?_
  split
  · refine .next (bin [] rfl (.at 0 rfl) (.imm _)) fun _ => ?_
    exact .pure rfl
  · next h =>
    obtain rfl := Decidable.not_not.1 h
    refine .pure ?_
    have hzero := shiftOp_zero .w64 (Ir.extend v (8 <<< (option % 4)) (4 ≤ option % 8)) 0
    rw [Supplies, show BinOp.eval .shl .w64 _ (UInt64.ofNat 0) = _ from hzero, Width.and_mask_w64]
    rfl

end Computes

end Dynarec.Compiler
