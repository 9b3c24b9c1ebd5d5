import Dynarec.Proofs.Compiler.Additions
import Dynarec.Proofs.Compiler.Attempts
import Dynarec.Proofs.Instr.Accesses

/-!
# Compiled loads and stores

Loads and stores are compiled to the operations that do what their words say: they go to the same addresses,
write the same registers with the same values, move the same base, and fail where memory ends with the same
registers and memory left.
-/

namespace Dynarec.Compiler

open Bits (bit)
open Instr (Transfer Addressing Outcome Access AccessClass transferred loadedValue writeLoaded storeAll
  elementAddrs bitsAt)
open Interp (Frame Services runOps)
open Ir (BinOp Operand Ty)

variable {cells : List Cell} {cpu : Cpu.State} {mem : Memory} {x : Operand} {v addr : UInt64}
  {size : AccessSize} {width : Width} {signed : Bool} {m : EmitM Unit} {o : Outcome}

/-! ### Values -/

/-- A loaded value has no bits above its element. -/
lemma bit_readWord_of_le (bytes : ByteArray) {i count j : Nat} (h : 8 * count ≤ j) :
    bit (Bytes.readWord bytes i count) j = false := by
  induction count generalizing i j with
  | zero => exact Bits.bit_zero
  | succ count ih =>
    have hbyte : bit (Bytes.get bytes i).toUInt64 j = false := by
      rw [Bits.bit_eq_testBit, UInt8.toNat_toUInt64]
      exact Nat.testBit_lt_two_pow (Nat.lt_of_lt_of_le (Bytes.get bytes i).toNat_lt
        (Nat.pow_le_pow_right (by decide) (by omega : 8 ≤ j)))
    have hrest : bit (Bytes.readWord bytes (i + 1) count <<< UInt64.ofNat 8) j = false := by
      rw [Bits.bit_shiftLeft (by decide), ih (by omega), Bool.and_false]
    rw [Bytes.readWord, Bits.bit_or, hbyte]
    exact hrest

lemma bit_read_of_le {j : Nat} (h : mem.read addr size = .ok v) (hj : 8 * size.bytes ≤ j) :
    bit v j = false := by
  unfold Memory.read at h
  split at h
  · cases h
    exact bit_readWord_of_le _ hj
  · cases h

/-- A loaded value after its extension, if it has one. -/
def extendIf (size : AccessSize) (signed : Bool) (v : UInt64) : UInt64 :=
  if signed ∧ size ≠ .double then Ir.extend v (size.bytes * 8) true else v

lemma bit_extendIf (hv : ∀ j, 8 * size.bytes ≤ j → bit v j = false) {i : Nat} (hi : i < 64) :
    bit (extendIf size signed v) i =
      if i < 8 * size.bytes then bit v i else signed && bit v (8 * size.bytes - 1) := by
  have hsize : 0 < size.bytes ∧ size.bytes ≤ 8 := by cases size <;> decide
  unfold extendIf
  split
  · next h =>
    rw [Ir.bit_extend (by omega) (by omega) true hi, Nat.mul_comm, h.1]
  · next h =>
    split
    · rfl
    · next hge =>
      have hsigned : signed = false := by
        rw [Bool.eq_false_iff]
        intro hs
        have hdouble : size = .double := by
          by_contra hne
          exact h ⟨hs, hne⟩
        subst hdouble
        exact hge hi
      rw [hv i (Nat.not_lt.1 hge), hsigned, Bool.false_and]

/-- Below the width a loaded value is the element with its extension. -/
lemma extendIf_and_mask (hv : ∀ j, 8 * size.bytes ≤ j → bit v j = false) :
    extendIf size signed v &&& width.mask = loadedValue size width signed v := by
  have hsize : 0 < size.bytes := by cases size <;> decide
  have hlast : 8 * size.bytes - 1 < 8 * size.bytes := by omega
  apply Bits.eq_of_bit
  intro i hi
  rw [Bits.bit_and, Bits.bit_mask, bit_extendIf hv hi, loadedValue, Bits.bit_ofBitVec hi]
  by_cases hlt : i < width.bits
  · cases signed with
    | true =>
      rw [if_pos rfl, BitVec.getLsbD_signExtend, BitVec.msb_eq_getLsbD_last, BitVec.getLsbD_setWidth,
        BitVec.getLsbD_setWidth]
      by_cases hin : i < 8 * size.bytes <;> simp [hlt, hin, hlast, bit]
    | false =>
      rw [if_neg Bool.false_ne_true, BitVec.getLsbD_setWidth, BitVec.getLsbD_setWidth]
      by_cases hin : i < 8 * size.bytes <;> simp [hlt, hin, bit]
  · cases signed <;> simp [hlt, BitVec.getLsbD_signExtend]

/-- A register written with a loaded value. -/
lemma writeX_extendIf (h : mem.read addr size = .ok v) (rt : Nat) :
    cpu.writeX rt width (extendIf size signed v) =
      cpu.writeX rt .w64 (loadedValue size width signed v) := by
  rw [← cpu.writeX_and_mask, extendIf_and_mask fun j => bit_read_of_le h]

lemma eval_add_w64 (v w : UInt64) : BinOp.eval .add .w64 v w = v + w := by
  simp only [BinOp.eval, Width.and_mask_w64]

/-- The width of a register that an element of a pair is loaded into. -/
def pairWidth (size : AccessSize) (signed : Bool) : Width := if size = .double ∨ signed then .w64 else .w32

/-! ### Outcomes -/

/-- How operations stop that leave what an access leaves. -/
def stopOf (o : Outcome) : Option Stop := o.error.map fun e => ⟨e, o.cpu, o.mem⟩

/-- The operations of a piece of the compiler leave what an access leaves. -/
abbrev Achieves (cells : List Cell) (cpu : Cpu.State) (mem : Memory) (m : EmitM Unit) (o : Outcome) : Prop :=
  Attempts ⟨cells, cpu, mem⟩ m (Arrives ⟨cells, o.cpu, o.mem⟩) (stopOf o)

section
variable (rt rt2 : Nat)

lemma elementAddrs_one (size : AccessSize) (addr : UInt64) : elementAddrs size 1 addr = [addr] := by
  show [addr + UInt64.ofNat (0 * size.bytes)] = _
  rw [Nat.zero_mul]
  exact congrArg (fun a => [a]) (UInt64.add_zero addr)

lemma elementAddrs_two (size : AccessSize) (addr : UInt64) :
    elementAddrs size 2 addr = [addr, addr + UInt64.ofNat size.bytes] := by
  show [addr + UInt64.ofNat (0 * size.bytes), addr + UInt64.ofNat (1 * size.bytes)] = _
  rw [Nat.zero_mul, Nat.one_mul]
  exact congrArg (fun a => [a, _]) (UInt64.add_zero addr)

lemma transferred_load_one : transferred (.load width signed) size [rt] addr cpu mem =
    match mem.read addr size with
    | .error e => ⟨some e, cpu, mem⟩
    | .ok v => ⟨none, cpu.writeX rt .w64 (loadedValue size width signed v), mem⟩ := by
  unfold transferred
  dsimp only [List.length_singleton]
  rw [elementAddrs_one]
  rw [List.mapM_cons]
  cases mem.read addr size <;> rfl

lemma transferred_load_two : transferred (.load width signed) size [rt, rt2] addr cpu mem =
    match mem.read addr size with
    | .error e => ⟨some e, cpu, mem⟩
    | .ok v =>
      match mem.read (addr + UInt64.ofNat size.bytes) size with
      | .error e => ⟨some e, cpu, mem⟩
      | .ok w => ⟨none, (cpu.writeX rt .w64 (loadedValue size width signed v)).writeX rt2 .w64
          (loadedValue size width signed w), mem⟩ := by
  unfold transferred
  dsimp only [List.length_cons, List.length_nil]
  rw [elementAddrs_two]
  rw [List.mapM_cons]
  cases mem.read addr size with
  | error e => rfl
  | ok v =>
    simp only [List.mapM_cons]
    cases mem.read (addr + UInt64.ofNat size.bytes) size <;> rfl

lemma transferred_store_one : transferred .store size [rt] addr cpu mem =
    match Memory.write addr size (cpu.readX rt .w64) mem with
    | .error e mem => ⟨some e, cpu, mem⟩
    | .ok _ mem => ⟨none, cpu, mem⟩ := by
  unfold transferred
  dsimp only [List.length_singleton]
  rw [elementAddrs_one]
  show (match (Memory.write addr size (cpu.readX rt .w64) >>= fun _ => Pure.pure ()) mem with
    | .error e mem => _ | .ok _ mem => _) = _
  cases h : Memory.write addr size (cpu.readX rt .w64) mem with
  | ok u mem => rw [EStateM.bind_ok h]; rfl
  | error e mem => rw [EStateM.bind_error h]

lemma transferred_store_two : transferred .store size [rt, rt2] addr cpu mem =
    match Memory.write addr size (cpu.readX rt .w64) mem with
    | .error e mem => ⟨some e, cpu, mem⟩
    | .ok _ mem =>
      match Memory.write (addr + UInt64.ofNat size.bytes) size (cpu.readX rt2 .w64) mem with
      | .error e mem => ⟨some e, cpu, mem⟩
      | .ok _ mem => ⟨none, cpu, mem⟩ := by
  unfold transferred
  dsimp only [List.length_cons, List.length_nil]
  rw [elementAddrs_two]
  show (match (Memory.write addr size (cpu.readX rt .w64) >>= fun _ =>
      Memory.write (addr + UInt64.ofNat size.bytes) size (cpu.readX rt2 .w64) >>= fun _ =>
        Pure.pure ()) mem with
    | .error e mem => _ | .ok _ mem => _) = _
  cases h : Memory.write addr size (cpu.readX rt .w64) mem with
  | error e mem => rw [EStateM.bind_error h]
  | ok u mem =>
    rw [EStateM.bind_ok h]
    cases h' : Memory.write (addr + UInt64.ofNat size.bytes) size (cpu.readX rt2 .w64) mem with
    | ok u mem =>
      rw [EStateM.bind_ok h']
      dsimp only
      rw [h']
      rfl
    | error e mem =>
      rw [EStateM.bind_error h']
      dsimp only
      rw [h']

end

/-! ### Pieces -/

namespace Attempts

/-- A value is loaded into a new local, with its extension. -/
lemma loadValue (signed : Bool) (hx : Has ⟨cells, cpu, mem⟩ x addr) :
    Attempts ⟨cells, cpu, mem⟩ (Compiler.load x size signed)
      (Supplies ⟨cells, cpu, mem⟩ .i64 (extendIf size signed (valueAt mem addr size)))
      (loadStop cpu mem addr size) := by
  unfold Compiler.load extendIf
  refine .alloc _ fun l => (load [] rfl (hx.up [_])).before ?_
  rintro _ _ rfl
  split
  · refine .next (.write [] rfl (writes_extend _ _ (.at 0 rfl)) (Ty.and_mask_i64 _)) fun _ => ?_
    exact .pure rfl
  · exact .pure rfl

/-- An access of one register. -/
lemma transferAt (t : Transfer) (rt : Nat) (hx : Has ⟨cells, cpu, mem⟩ x addr) :
    Achieves cells cpu mem (transferAt t size rt x) (transferred t size [rt] addr cpu mem) := by
  cases t with
  | prefetch => exact Computes.skip.attempts
  | store =>
    have hstore : Attempts ⟨cells, cpu, mem⟩ (Compiler.emit (.store size x (gpr rt))) _ _ :=
      store hx (has_gpr _ rt)
    rw [transferred_store_one]
    cases hwrite : Memory.write addr size (cpu.readX rt .w64) mem with
    | ok u mem' =>
      rw [storeStop_of_ok hwrite, hwrite] at hstore
      exact hstore
    | error e mem' =>
      rw [storeStop_of_error hwrite, hwrite] at hstore
      exact hstore
  | load width signed =>
    have hload : Attempts ⟨cells, cpu, mem⟩ (Compiler.transferAt (.load width signed) size rt x)
        (Arrives ⟨cells, cpu.writeX rt width (extendIf size signed (valueAt mem addr size)), mem⟩)
        (loadStop cpu mem addr size) := by
      refine (loadValue signed hx).before ?_
      rintro l _ rfl
      exact .next (.moveDest rt (.at 0 rfl)) fun _ => .release [] rfl
    rw [transferred_load_one]
    cases hread : mem.read addr size with
    | ok v =>
      rw [valueAt_of_ok hread, loadStop_of_ok hread, writeX_extendIf hread] at hload
      exact hload
    | error e =>
      rw [loadStop_of_error hread] at hload
      exact hload.instead cpu mem

/-- Two registers are loaded. -/
lemma pairAt_load (signed : Bool) (rt2 rt : Nat) (hx : Has ⟨cells, cpu, mem⟩ x addr) :
    Achieves cells cpu mem (pairAt true size signed rt2 rt x)
      (transferred (.load (pairWidth size signed) signed) size [rt, rt2] addr cpu mem) := by
  have hload : Attempts ⟨cells, cpu, mem⟩ (Compiler.pairAt true size signed rt2 rt x)
      (Arrives ⟨cells, (cpu.writeX rt (pairWidth size signed)
          (extendIf size signed (valueAt mem addr size))).writeX rt2 (pairWidth size signed)
          (extendIf size signed (valueAt mem (addr + UInt64.ofNat size.bytes) size)), mem⟩)
      (loadStop cpu mem addr size <|> loadStop cpu mem (addr + UInt64.ofNat size.bytes) size) := by
    refine .alloc _ fun second => .after (.bin [] rfl (hx.up [_]) (.imm _)) ?_
    rintro _ _ rfl
    rw [eval_add_w64]
    refine .bind (loadValue signed (hx.up [_])) ?_
    rintro first _ rfl
    refine .before (loadValue signed (.at 1 rfl)) ?_
    rintro last _ rfl
    -- Both elements are in locals before a register is written, which may be the base.
    refine .next (.moveDest rt (.at 1 rfl)) fun _ => .next (.moveDest rt2 (.at 0 rfl)) fun _ => ?_
    exact .releaseAll (.cons [_] rfl (.cons [] rfl (.cons [] rfl .nil)))
  rw [transferred_load_two]
  cases hread : mem.read addr size with
  | error e =>
    rw [loadStop_of_error hread] at hload
    exact hload.instead cpu mem
  | ok v =>
    rw [valueAt_of_ok hread, loadStop_of_ok hread, writeX_extendIf hread] at hload
    cases hread' : mem.read (addr + UInt64.ofNat size.bytes) size with
    | error e =>
      rw [loadStop_of_error hread'] at hload
      exact hload.instead cpu mem
    | ok w =>
      rw [valueAt_of_ok hread', loadStop_of_ok hread', writeX_extendIf hread'] at hload
      exact hload

/-- Two registers are stored. -/
lemma pairAt_store (signed : Bool) (rt2 rt : Nat) (hx : Has ⟨cells, cpu, mem⟩ x addr) :
    Achieves cells cpu mem (pairAt false size signed rt2 rt x)
      (transferred .store size [rt, rt2] addr cpu mem) := by
  have hstore : Attempts ⟨cells, cpu, mem⟩ (Compiler.pairAt false size signed rt2 rt x)
      (Arrives ⟨cells, cpu, EStateM.after (Memory.write (addr + UInt64.ofNat size.bytes) size
        (cpu.readX rt2 .w64) (EStateM.after (Memory.write addr size (cpu.readX rt .w64) mem)))⟩)
      (storeStop cpu mem addr size (cpu.readX rt .w64) <|>
        storeStop cpu (EStateM.after (Memory.write addr size (cpu.readX rt .w64) mem))
          (addr + UInt64.ofNat size.bytes) size (cpu.readX rt2 .w64)) := by
    refine .alloc _ fun second => .after (.bin [] rfl (hx.up [_]) (.imm _)) ?_
    rintro _ _ rfl
    rw [eval_add_w64]
    refine .bind (store (hx.up [_]) (has_gpr _ rt)) ?_
    rintro _ _ rfl
    refine .before (store (.at 0 rfl) (has_gpr _ rt2)) ?_
    rintro _ _ rfl
    exact .release [] rfl
  rw [transferred_store_two]
  cases hwrite : Memory.write addr size (cpu.readX rt .w64) mem with
  | error e mem' =>
    rw [storeStop_of_error hwrite] at hstore
    exact hstore.instead cpu mem'
  | ok u mem' =>
    rw [storeStop_of_ok hwrite, hwrite] at hstore
    dsimp only [EStateM.after_ok] at hstore ⊢
    cases hwrite' : Memory.write (addr + UInt64.ofNat size.bytes) size (cpu.readX rt2 .w64) mem' with
    | error e mem'' =>
      rw [storeStop_of_error hwrite', hwrite'] at hstore
      exact hstore
    | ok u mem'' =>
      rw [storeStop_of_ok hwrite', hwrite'] at hstore
      exact hstore

/-- An access at a base, which may move. -/
lemma addressed (mode : Instr.AddrMode) (rn : Nat) (offset pc : UInt64) {act : Operand → EmitM Unit}
    (hact : ∀ cells x, Has ⟨cells, cpu, mem⟩ x ((Addressing.base mode rn offset).addr pc cpu) →
      Achieves cells cpu mem (act x) o) :
    Achieves cells cpu mem (addressed rn offset mode act) (o.moveBase (.base mode rn offset) cpu) := by
  have hbase : ∀ cells, Has ⟨cells, cpu, mem⟩ (gprOrSp rn) (cpu.readXOrSp rn) := fun _ => has_gprOrSp _ rn
  have hmoved : Attempts ⟨cells, cpu, mem⟩ (Compiler.addressed rn offset mode act)
      (Arrives ⟨cells, (Addressing.base mode rn offset).moveBase cpu o.cpu, o.mem⟩) (stopOf o) := by
    unfold Compiler.addressed
    split
    · next h =>
      obtain ⟨rfl, rfl⟩ := h
      refine hact _ _ ?_
      rw [Addressing.addr, UInt64.add_zero]
      exact hbase _
    · -- The base moves to a sum that is taken before the access, which may write the base.
      refine .alloc _ fun l => .after (.bin [] rfl (hbase _) (.imm _)) ?_
      rintro _ _ rfl
      rw [eval_add_w64]
      refine .before (hact _ _ ?_) ?_
      · cases mode with
        | postIndex => exact hbase _
        | offset | preIndex => exact .at 0 rfl
      · rintro _ _ rfl
        cases mode with
        | offset => exact .release [] rfl
        | preIndex | postIndex =>
          exact .next (.moveOrSp rn (.at 0 rfl)) fun _ => .release [] rfl
  obtain ⟨error, cpu', mem'⟩ := o
  cases error with
  | none => exact hmoved
  | some e => exact hmoved.instead cpu' mem'

/-- An access at a base and an extended register. -/
lemma accessIndexed (t : Transfer) {option : Nat} (hoption : option < 8) (scaled : Bool)
    (rm rn rt : Nat) (pc : UInt64) :
    Achieves cells cpu mem (accessIndexed t size option scaled rm rn rt)
      (Access.apply ⟨t, size, [rt], .indexed rn rm option (if scaled then size.log2 else 0)⟩ pc cpu mem) := by
  have hamount : (if scaled then size.log2 else 0) ≤ 4 := by cases size <;> cases scaled <;> decide
  have haccess : Achieves cells cpu mem (Compiler.accessIndexed t size option scaled rm rn rt)
      (transferred t size [rt] (cpu.readXOrSp rn + Instr.extendedValue (cpu.readX rm .w64) option
        (if scaled then size.log2 else 0)) cpu mem) := by
    refine .after (.extended (has_gpr _ rm) option _) ?_
    rintro l _ rfl
    rw [eval_extend hoption hamount]
    refine .after (.bin [] rfl (has_gprOrSp _ rn) (.at 0 rfl)) ?_
    rintro _ _ rfl
    rw [eval_add_w64]
    refine .before (transferAt t rt (.at 0 rfl)) ?_
    rintro _ _ rfl
    exact .release [] rfl
  have hbase : ∀ o : Outcome, o.moveBase (.indexed rn rm option (if scaled then size.log2 else 0)) cpu = o := by
    rintro ⟨_ | e, cpu', mem'⟩ <;> rfl
  rw [Access.apply, hbase]
  exact haccess

end Attempts

/-! ### Words -/

/-- In every block that holds no scratch local a piece of the compiler succeeds and appends operations that do
what `effect` says, which may depend on the address of the instruction: they leave these registers and this
memory, fail with this error or go on, and change nothing else. It leaves no local held. -/
def Accesses (m : EmitM Unit) (effect : UInt64 → Cpu.State → Memory → Outcome) : Prop :=
  ∀ b : Block, b.scratch.Valid → (∀ l, ¬ b.scratch.Holds l) → ∃ ops scratch,
    m b = .ok () { b with ops := b.ops ++ ops, scratch := scratch } ∧
    scratch.Valid ∧ (∀ l, ¬ scratch.Holds l) ∧ Declares b.scratch.types scratch.types ∧
    ∀ {H : Type} (services : Services H) (types : Array Ty) (f : Frame H),
      Declares scratch.types types → f.locals.size = types.size → ∃ locals : Array UInt64,
        let o := effect b.pc f.machine.cpu f.machine.mem
        let after : Frame H := ⟨⟨o.cpu, o.mem, f.machine.host⟩, locals⟩
        runOps services types ops.toList f =
          (match o.error with
          | none => .ok none after
          | some e => .error (.error (.memory e)) after) ∧
        locals.size = types.size

lemma accesses_of_attempts {effect : UInt64 → Cpu.State → Memory → Outcome} (m' : UInt64 → EmitM Unit)
    (hm : ∀ b, m b = m' b.pc b) (h : ∀ pc cpu mem, Achieves [] cpu mem (m' pc) (effect pc cpu mem)) :
    Accesses m effect := by
  intro b hb hnone
  obtain ⟨_, ops, scratch, hrun, hall⟩ := exists_appended (m := m' b.pc) (b := b)
    (R := fun (cpu, mem) _ ops scratch =>
      let o := effect b.pc cpu mem
      Owns scratch [] ∧ Declares b.scratch.types scratch.types ∧
        Ends ⟨[], cpu, mem⟩ ⟨[], o.cpu, o.mem⟩ scratch.types ops.toList (stopOf o))
    (.reset, ⟨.empty⟩) fun (cpu, mem) => by
    obtain ⟨_, ops, scratch, _, hrun, rfl, hparts⟩ := (h b.pc cpu mem).run b (owns_nil hb hnone)
    exact ⟨(), ops, scratch, hrun, hparts⟩
  obtain ⟨hs, hdeclares, -⟩ := hall (.reset, ⟨.empty⟩)
  refine ⟨ops, scratch, (hm b).trans hrun, hs.valid, fun l hl => ?_, hdeclares, ?_⟩
  · simpa using (hs.holds l).1 hl
  · intro H services types f hT hsize
    obtain ⟨-, -, hends⟩ := hall (f.machine.cpu, f.machine.mem)
    have hfits : View.Fits ⟨[], f.machine.cpu, f.machine.mem⟩ types f := ⟨rfl, rfl, hsize, nofun⟩
    generalize effect b.pc f.machine.cpu f.machine.mem = o at hends
    obtain ⟨error, cpu', mem'⟩ := o
    cases error with
    | none =>
      obtain ⟨⟨⟨cpu, mem, host⟩, locals⟩, hruns, hhost, hfits'⟩ := hends services types f hT hfits
      obtain ⟨hcpu, hmem, hsize', -⟩ := hfits'
      dsimp only at hcpu hmem hhost hsize'
      subst hcpu hmem hhost
      exact ⟨locals, hruns, hsize'⟩
    | some e => exact hends services types f hT hfits

lemma accesses_literal (t : Transfer) (size : AccessSize) (rt : Nat) (offset : UInt64) :
    Accesses (Compiler.literal t size rt offset) (Access.apply ⟨t, size, [rt], .literal offset⟩) := by
  apply accesses_of_attempts (fun pc => transferAt t size rt (.imm (pc + offset))) fun b => rfl
  intro pc cpu mem
  have hbase : ∀ o : Outcome, o.moveBase (.literal offset) cpu = o := by
    rintro ⟨_ | e, cpu', mem'⟩ <;> rfl
  rw [Access.apply, hbase]
  exact .transferAt t rt (.imm _)

lemma accesses_addressed (t : Transfer) (size : AccessSize) (mode : Instr.AddrMode) (rn rt : Nat)
    (offset : UInt64) : Accesses (addressed rn offset mode (transferAt t size rt))
      (Access.apply ⟨t, size, [rt], .base mode rn offset⟩) :=
  accesses_of_attempts (fun _ => _) (fun _ => rfl) fun pc _ _ =>
    .addressed mode rn offset pc fun _ _ hx => .transferAt t rt hx

lemma accesses_indexed (t : Transfer) (size : AccessSize) {option : Nat} (hoption : option < 8)
    (scaled : Bool) (rm rn rt : Nat) : Accesses (Compiler.accessIndexed t size option scaled rm rn rt)
      (Access.apply ⟨t, size, [rt], .indexed rn rm option (if scaled then size.log2 else 0)⟩) :=
  accesses_of_attempts (fun _ => _) (fun _ => rfl) fun pc _ _ => .accessIndexed t hoption scaled rm rn rt pc

/-- What is done with the elements of a pair that are as wide as they are, or extended with their sign. -/
def pairTransfer (load : Bool) (size : AccessSize) (signed : Bool) : Transfer :=
  if load then .load (pairWidth size signed) signed else .store

lemma accesses_pair (load : Bool) (size : AccessSize) (signed : Bool) (mode : Instr.AddrMode)
    (rn rt2 rt : Nat) (offset : UInt64) :
    Accesses (addressed rn offset mode (pairAt load size signed rt2 rt))
      (Access.apply ⟨pairTransfer load size signed, size, [rt, rt2], .base mode rn offset⟩) := by
  cases load with
  | true =>
    exact accesses_of_attempts (fun _ => _) (fun _ => rfl) fun pc _ _ =>
      .addressed mode rn offset pc fun _ _ hx => .pairAt_load signed rt2 rt hx
  | false =>
    exact accesses_of_attempts (fun _ => _) (fun _ => rfl) fun pc _ _ =>
      .addressed mode rn offset pc fun _ _ hx => .pairAt_store signed rt2 rt hx

section
variable {word : UInt32}

/-- A word compiles to an access, or is refused. -/
def CompilesToAccess (word : UInt32) : Option Access → Prop
  | some a => Accesses (lowerWord word) a.apply
  | none => lowerWord word = invalid

/-- A word whose fields are read as one instruction if they are allocated. -/
lemma compilesTo_allocated {α : Type} {t : Option α} {read : α → Instr} {access : α → Access}
    (hread : lowerWord word = lowerRead (Instr.Form.allocated t >>= fun t => .ok (read t)))
    (h : ∀ t, Accesses (lower (read t)) (access t).apply) : CompilesToAccess word (t.map access) := by
  cases t with
  | none => exact hread
  | some t =>
    show Accesses (lowerWord word) _
    rw [hread]
    exact h t

lemma transfer?_eq :
    ∀ size < 4, ∀ opc < 4, Instr.Form.transfer? size opc = Instr.transferOf size opc := by
  decide

/-- Only a base that does not move has prefetches. -/
lemma allocated_transfer (mode : Instr.AddrMode) (t : Option Transfer) (read : Transfer → Instr) :
    (Instr.Form.allocated t >>= fun t =>
      Instr.Form.require (t != .prefetch || mode == .offset) >>= fun _ => .ok (read t)) =
    (Instr.Form.allocated (if mode = .offset then t else t.filter (· ≠ .prefetch)) >>= fun t =>
      .ok (read t)) := by
  rcases t with _ | _ | ⟨width, signed⟩ | _ <;> cases mode <;> rfl

lemma read_signed (mode : Instr.AddrMode) (word : UInt32) (size opc imm rn rt : Nat) :
    Instr.Form.accessSigned mode ⟨word,
      [("size", size), ("opc", opc), ("imm9", imm), ("Rn", rn), ("Rt", rt)]⟩ =
    (Instr.Form.allocated (if mode = .offset then Instr.Form.transfer? size opc
      else (Instr.Form.transfer? size opc).filter (· ≠ .prefetch)) >>= fun t =>
        .ok (.access t (.ofLog2 size) (mode == .offset) mode (Bits.signExtend (UInt64.ofNat imm) 9) rn rt)) := by
  rw [← allocated_transfer]
  rfl

lemma lowerWord_literal (h : AccessClass.literal.Encodes word) :
    CompilesToAccess word (AccessClass.literal.read? word) := by
  show Accesses (lowerWord word) _
  rw [lowerWord_read (i := 25) rfl (Instr.Form.toPattern_of_chars (P := fun p => p = .ok _) rfl rfl) h
    rfl rfl, ← Instr.signExtend_scaled _ (by decide) (by decide)]
  exact accesses_literal _ _ _ _

lemma transfer?_word (word : UInt32) : Instr.Form.transfer? (bitsAt word 30 2) (bitsAt word 22 2) =
    Instr.transferOf (bitsAt word 30 2) (bitsAt word 22 2) :=
  transfer?_eq _ (Instr.bitsAt_lt word 30 2) _ (Instr.bitsAt_lt word 22 2)

lemma lowerWord_unsigned (h : AccessClass.unsigned.Encodes word) :
    CompilesToAccess word (AccessClass.unsigned.read? word) := by
  have hread : lowerWord word = lowerRead (Instr.Form.allocated (Instr.Form.transfer? (bitsAt word 30 2)
      (bitsAt word 22 2)) >>= fun t => .ok (.access t (.ofLog2 (bitsAt word 30 2)) false .offset
        (UInt64.ofNat (bitsAt word 10 12 <<< bitsAt word 30 2)) (bitsAt word 5 5) (bitsAt word 0 5))) :=
    lowerWord_read (i := 26) rfl (Instr.Form.toPattern_of_chars (P := fun p => p = .ok _) rfl rfl) h rfl rfl
  rw [transfer?_word, Nat.shiftLeft_eq] at hread
  exact compilesTo_allocated hread fun t => accesses_addressed t _ .offset _ _ _

lemma lowerWord_signed (mode : Instr.AddrMode) {t : Option Transfer}
    (hword : lowerWord word = lowerRead (Instr.Form.accessSigned mode ⟨word,
      [("size", bitsAt word 30 2), ("opc", bitsAt word 22 2), ("imm9", bitsAt word 12 9),
        ("Rn", bitsAt word 5 5), ("Rt", bitsAt word 0 5)]⟩))
    (ht : t = if mode = .offset then Instr.transferOf (bitsAt word 30 2) (bitsAt word 22 2)
      else (Instr.transferOf (bitsAt word 30 2) (bitsAt word 22 2)).filter (· ≠ .prefetch)) :
    CompilesToAccess word (t.map fun t => ⟨t, .ofLog2 (bitsAt word 30 2), [bitsAt word 0 5],
      .base mode (bitsAt word 5 5) (Instr.signedField 9 (bitsAt word 12 9) 0)⟩) := by
  rw [read_signed, transfer?_word, ← ht] at hword
  refine compilesTo_allocated hword fun t => ?_
  rw [← Instr.signExtend_scaled _ (by decide) (by decide), pow_zero, Nat.mul_one]
  exact accesses_addressed t _ mode _ _ _

/-- The fields of an access at a base and a register. -/
def indexedFields : List Encoding.Field :=
  [⟨"size", 30, 2, none⟩, ⟨"opc", 22, 2, none⟩, ⟨"Rm", 16, 5, none⟩,
    ⟨"option", 13, 3, some (.only [2, 3, 6, 7])⟩, ⟨"S", 12, 1, none⟩, ⟨"Rn", 5, 5, none⟩, ⟨"Rt", 0, 5, none⟩]

lemma toPattern_indexed : (Instr.Form.compiled "ldr/str register offset"
    "size:2 111 0 00 opc:2 1 Rm:5 option:3 S:1 10 Rn:5 Rt:5" Instr.Form.accessIndexed
    [("option", .only [2, 3, 6, 7])]).toPattern = .ok ⟨0x3f200c00, 0x38200800, indexedFields⟩ :=
  Instr.Form.toPattern_of_chars (P := fun p => p = .ok _) rfl rfl

lemma admits_indexed (word : UInt32) :
    indexedFields.all (·.admits word) = true ↔ ¬ bitsAt word 13 3 % 4 < 2 := by
  have hoption : ∀ n < 8, (n = 2 ∨ n = 3 ∨ n = 6 ∨ n = 7) ↔ ¬ n % 4 < 2 := by decide
  have hiff := hoption _ (Instr.bitsAt_lt word 13 3)
  simpa [indexedFields, Encoding.Field.admits, Encoding.Constraint.admits, Encoding.Field.extract,
    bitsAt] using hiff

lemma log2_ofLog2 : ∀ n < 4, (AccessSize.ofLog2 n).log2 = n := by decide

lemma lowerWord_register (h : AccessClass.register.Encodes word) :
    CompilesToAccess word (AccessClass.register.read? word) := by
  by_cases hoption : bitsAt word 13 3 % 4 < 2
  · simp only [AccessClass.read?, if_pos hoption, CompilesToAccess]
    refine lowerWord_refused (i := 30) rfl toPattern_indexed h ?_
    rw [Bool.eq_false_iff, Ne, admits_indexed]
    exact not_not_intro hoption
  · simp only [AccessClass.read?, if_neg hoption]
    have hread : lowerWord word = lowerRead (Instr.Form.allocated (Instr.Form.transfer?
        (bitsAt word 30 2) (bitsAt word 22 2)) >>= fun t => .ok (.accessIndexed t
          (.ofLog2 (bitsAt word 30 2)) (bitsAt word 13 3) (bitsAt word 12 1 == 1) (bitsAt word 16 5)
          (bitsAt word 5 5) (bitsAt word 0 5))) :=
      lowerWord_read (i := 30) rfl toPattern_indexed h ((admits_indexed word).2 hoption) rfl
    rw [transfer?_word] at hread
    refine compilesTo_allocated hread fun t => ?_
    have haccess := accesses_indexed t (.ofLog2 (bitsAt word 30 2)) (Instr.bitsAt_lt word 13 3)
      (bitsAt word 12 1 == 1) (bitsAt word 16 5) (bitsAt word 5 5) (bitsAt word 0 5)
    simp only [beq_iff_eq, log2_ofLog2 _ (Instr.bitsAt_lt word 30 2)] at haccess
    exact haccess

/-- The fields of an access of two registers. -/
def pairFields : List Encoding.Field :=
  [⟨"opc", 30, 2, some (.exclude [3])⟩, ⟨"idx", 23, 2, none⟩, ⟨"L", 22, 1, none⟩, ⟨"imm7", 15, 7, none⟩,
    ⟨"Rt2", 10, 5, none⟩, ⟨"Rn", 5, 5, none⟩, ⟨"Rt", 0, 5, none⟩]

lemma toPattern_pair : (Instr.Form.compiled "ldp/stp"
    "opc:2 101 0 0 idx:2 L:1 imm7:7 Rt2:5 Rn:5 Rt:5" Instr.Form.pair
    [("opc", .exclude [3])]).toPattern = .ok ⟨0x3e000000, 0x28000000, pairFields⟩ :=
  Instr.Form.toPattern_of_chars (P := fun p => p = .ok _) rfl rfl

lemma admits_pair (word : UInt32) :
    pairFields.all (·.admits word) = true ↔ bitsAt word 30 2 ≠ 3 := by
  simp [pairFields, Encoding.Field.admits, Encoding.Constraint.admits, Encoding.Field.extract,
    bitsAt]

lemma read_pair (word : UInt32) (opc index l imm rt2 rn rt : Nat) : Instr.Form.pair ⟨word,
    [("opc", opc), ("idx", index), ("L", l), ("imm7", imm), ("Rt2", rt2), ("Rn", rn), ("Rt", rt)]⟩ =
      (Instr.Form.allocated (Instr.Form.pairLayout? opc index (l == 1)) >>= fun (size, signed) =>
        .ok (.pair (l == 1) (index == 0) size signed (Instr.pairMode index)
          (Instr.signedField 7 imm size.log2) rt2 rn rt)) := by
  have hoffset : ∀ size : AccessSize, Instr.signedField 7 imm size.log2 =
      Bits.signExtend (UInt64.ofNat imm) 7 <<< UInt64.ofNat size.log2 := by
    intro size
    have hplain : Bits.signExtend (UInt64.ofNat imm) 7 = Instr.signedField 7 imm 0 := by
      rw [← Instr.signExtend_scaled imm (by decide) (by decide), pow_zero, Nat.mul_one]
    rw [hplain, Instr.shiftLeft_signedField (by decide) (by cases size <;> decide)]
  simp only [hoffset]
  rfl

lemma pairOf_eq : ∀ opc < 4, ∀ index < 4, ∀ load, Instr.pairOf opc load (index == 0) =
    (Instr.Form.pairLayout? opc index load).map fun (size, signed) =>
      (pairTransfer load size signed, size) := by
  decide

lemma lowerWord_pair (h : AccessClass.pair.Encodes word) :
    CompilesToAccess word (AccessClass.pair.read? word) := by
  have hpair := pairOf_eq _ (Instr.bitsAt_lt word 30 2) _ (Instr.bitsAt_lt word 23 2)
    (bitsAt word 22 1 == 1)
  simp only [AccessClass.read?, hpair, Option.map_map]
  by_cases hopc : bitsAt word 30 2 = 3
  · simp only [hopc]
    refine lowerWord_refused (i := 31) rfl toPattern_pair h ?_
    rw [Bool.eq_false_iff, Ne, admits_pair]
    exact not_not_intro hopc
  · exact compilesTo_allocated (lowerWord_read (i := 31) rfl toPattern_pair h ((admits_pair word).2 hopc)
      (read_pair ..)) fun (size, signed) => accesses_pair _ size signed _ _ _ _ _

lemma lowerWord_class (c : AccessClass) (h : c.Encodes word) : CompilesToAccess word (c.read? word) := by
  cases c with
  | literal => exact lowerWord_literal h
  | unsigned => exact lowerWord_unsigned h
  | unscaled =>
    exact lowerWord_signed .offset (lowerWord_read (i := 27) rfl
      (Instr.Form.toPattern_of_chars (P := fun p => p = .ok _) rfl rfl) h rfl rfl) rfl
  | postIndex =>
    exact lowerWord_signed .postIndex (lowerWord_read (i := 28) rfl
      (Instr.Form.toPattern_of_chars (P := fun p => p = .ok _) rfl rfl) h rfl rfl) rfl
  | preIndex =>
    exact lowerWord_signed .preIndex (lowerWord_read (i := 29) rfl
      (Instr.Form.toPattern_of_chars (P := fun p => p = .ok _) rfl rfl) h rfl rfl) rfl
  | register => exact lowerWord_register h
  | pair => exact lowerWord_pair h

/-- A word that accesses memory is compiled to the access that it asks for, and a reserved one is refused. -/
theorem lowerWord_access (c : AccessClass) (word : UInt32) (h : c.Encodes word) :
    match c.read? word with
    | some a => Accesses (lowerWord word) a.apply
    | none => ∀ b : Block, lowerWord word b = .error (.invalidEncoding b.pc b.word) b := by
  have hword := lowerWord_class c h
  revert hword
  cases c.read? word with
  | some a => exact id
  | none =>
    intro hword b
    rw [show lowerWord word = invalid from hword]
    rfl

/-- Loading two registers from the stack, which is popped. -/
theorem lowerWord_access_pop : AccessClass.pair.Encodes 0xa8c17bfd ∧
    Accesses (lowerWord 0xa8c17bfd)
      (Access.apply ⟨.load .w64 false, .double, [29, 30], .base .postIndex 31 16⟩) :=
  ⟨by decide, lowerWord_access .pair 0xa8c17bfd (by decide)⟩

end

end Dynarec.Compiler
