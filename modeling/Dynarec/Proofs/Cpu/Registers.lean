import Dynarec.Cpu.Cond
import Dynarec.Cpu.State
import Dynarec.Proofs.Ir.Eval

/-!
# Registers and flags

General registers at both widths, with 31 as the zero register or as the stack pointer, flags that are
read and written one at a time, and conditions without the bit that inverts them.
-/

namespace Dynarec.Cpu

namespace State

variable (s : State) {f g : Flag} {b d : Bool}

lemma writeFlag_comm (h : f ≠ g) :
    (s.writeFlag f b).writeFlag g d = (s.writeFlag g d).writeFlag f b := by
  have hne : f.index.val ≠ g.index.val := by
    intro e
    exact h (by cases f <;> cases g <;> first | rfl | cases e)
  simp only [writeFlag]
  rw [Vector.set_comm _ _ hne]

@[simp] lemma writeFlag_writeFlag : (s.writeFlag f b).writeFlag f d = s.writeFlag f d := by
  simp [writeFlag]

@[simp] lemma readFlag_writeFlag : (s.writeFlag f b).readFlag f = b := by
  cases b <;> simp [readFlag, writeFlag, Bool.toUInt64]

/-- The order in which an addition writes the flags does not matter. -/
lemma writeFlag_nzcv (f : Nzcv) :
    (((s.writeFlag .c f.c).writeFlag .v f.v).writeFlag .n f.n).writeFlag .z f.z = s.writeNzcv f := by
  rw [(s.writeFlag .c f.c).writeFlag_comm (by decide), s.writeFlag_comm (by decide),
    ((s.writeFlag .n f.n).writeFlag .c f.c).writeFlag_comm (by decide),
    (s.writeFlag .n f.n).writeFlag_comm (by decide)]
  rfl

/-- The four flags after all of them have been written. -/
lemma writeNzcv_eq (f : Nzcv) : s.writeNzcv f =
    { s with flags := #v[f.n.toUInt64, f.z.toUInt64, f.c.toUInt64, f.v.toUInt64] } := by
  have hflags : (s.writeNzcv f).flags =
      #v[f.n.toUInt64, f.z.toUInt64, f.c.toUInt64, f.v.toUInt64] := by
    ext i hi
    simp only [writeNzcv, writeFlag, Vector.getElem_set, Flag.index]
    match i, hi with
    | 0, _ | 1, _ | 2, _ | 3, _ => rfl
  rw [← hflags]
  rfl

/-- A flag keeps its value if a condition holds and gets another one otherwise. -/
def keepFlagIf (b : Bool) (f : Flag) (d : Bool) : State :=
  s.writeFlag f (if b then s.readFlag f else d)

/-- All flags keep their values if a condition holds and get others otherwise. -/
lemma keepFlagIf_nzcv (f g : Nzcv) (b : Bool) :
    ((((s.writeNzcv f).keepFlagIf b .n g.n).keepFlagIf b .z g.z).keepFlagIf b .c g.c).keepFlagIf b .v
      g.v = s.writeNzcv (if b then f else g) := by
  have hne : ∀ b : Bool, (b.toUInt64 != 0).toUInt64 = b.toUInt64 := by
    intro b
    cases b <;> rfl
  rw [writeNzcv_eq, writeNzcv_eq]
  cases b with
  | true =>
    show ({ s with flags := #v[(f.n.toUInt64 != 0).toUInt64, (f.z.toUInt64 != 0).toUInt64,
      (f.c.toUInt64 != 0).toUInt64, (f.v.toUInt64 != 0).toUInt64] } : State) = _
    simp only [hne, if_true]
  | false => rfl

/-- Every register is read whole. -/
@[simp] lemma readX_and_mask (n : Nat) (w : Width) : s.readX n .w64 &&& w.mask = s.readX n w := by
  unfold readX
  split
  · rw [Width.and_mask_w64]
  · exact w.zero_and_mask

@[simp] lemma writeX_and_mask (n : Nat) (w : Width) (v : UInt64) :
    s.writeX n .w64 (v &&& w.mask) = s.writeX n w v := by
  unfold writeX
  rw [Width.and_mask_w64]

/-- What is written counts below the width. -/
lemma writeX_congr (n : Nat) {w : Width} {u v : UInt64} (h : u &&& w.mask = v &&& w.mask) :
    s.writeX n w u = s.writeX n w v := by
  rw [← writeX_and_mask, h, writeX_and_mask]

lemma readX_of_le {n : Nat} (h : 31 ≤ n) (w : Width) : s.readX n w = 0 := by
  rw [readX, dif_neg (Nat.not_lt.2 h)]

lemma writeX_of_le {n : Nat} (h : 31 ≤ n) (w : Width) (v : UInt64) : s.writeX n w v = s := by
  rw [writeX, dif_neg (Nat.not_lt.2 h)]

/-- The value of a register, of which 31 is the stack pointer. -/
def readXOrSp (n : Nat) : UInt64 := if n = 31 then s.readSp else s.readX n .w64

/-- Write a register, of which 31 is the stack pointer, clearing the bits above a width. -/
def writeXOrSp (n : Nat) (w : Width) (v : UInt64) : State :=
  if n = 31 then s.writeSp (v &&& w.mask) else s.writeX n w v

@[simp] lemma writeXOrSp_and_mask (n : Nat) (w : Width) (v : UInt64) :
    s.writeXOrSp n .w64 (v &&& w.mask) = s.writeXOrSp n w v := by
  unfold writeXOrSp
  rw [Width.and_mask_w64, writeX_and_mask]

end State

namespace Cond

/-- What a condition says of the flags without the lowest bit of its number, which inverts it. -/
def plain (cond : Cond) (f : Nzcv) : Bool :=
  match cond with
  | .eq | .ne => f.z
  | .cs | .cc => f.c
  | .mi | .pl => f.n
  | .vs | .vc => f.v
  | .hi | .ls => (f.z ^^ true) && f.c
  | .ge | .lt => f.n == f.v
  | .gt | .le => (f.n == f.v) && (f.z ^^ true)
  | .al | .nv => true

lemma holds_eq_plain (cond : Cond) (f : Nzcv) :
    cond.holds f = (cond.plain f ^^ decide (cond.bits % 2 = 1 ∧ ¬ cond.isAlways)) := by
  cases cond <;> simp [holds, plain, bits, isAlways, Bool.and_comm, bne]

lemma holds_of_isAlways {cond : Cond} (h : cond.isAlways) (f : Nzcv) : cond.holds f = true := by
  cases cond with
  | al | nv => rfl
  | _ => cases h

end Cond

end Dynarec.Cpu
