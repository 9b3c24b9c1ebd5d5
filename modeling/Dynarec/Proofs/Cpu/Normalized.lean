import Mathlib.Algebra.Group.Nat.Defs
import Mathlib.Tactic.Common
import Dynarec.Interp.Frame

/-!
# Normalized processor states

The words of a state that hold less than 64 bits: flags are 0 or 1, the exception level is below 4,
the stack selector is a bit and `daif` has only the bits of its mask. A state after reset is
normalized, and every way to change a state keeps it so, whatever value is written. In a normalized
state the banks that are selected can be computed without cutting the level and the selector.
-/

namespace Dynarec.Cpu

namespace State

/-- Every word holds only what the architecture allows. -/
structure Normalized (s : State) : Prop where
  flags (f : Flag) : s.flags.get f.index = 0 ∨ s.flags.get f.index = 1
  el : s.el < 4
  spsel : s.spsel < 2
  daif : s.daif &&& ~~~SysReg.daifMask = 0

/-- One change of a state by a setter. -/
inductive Sets (s : State) : State → Prop where
  | x (n : Nat) (width : Width) (value : UInt64) : s.Sets (s.writeX n width value)
  | sp (value : UInt64) : s.Sets (s.writeSp value)
  | spEl (el : Nat) (value : UInt64) : s.Sets (s.writeSpEl el value)
  | elr (el : Nat) (value : UInt64) : s.Sets (s.writeElr el value)
  | spsr (el : Nat) (value : UInt64) : s.Sets (s.writeSpsr el value)
  | flag (f : Flag) (value : Bool) : s.Sets (s.writeFlag f value)
  | nzcv (flags : Nzcv) : s.Sets (s.writeNzcv flags)
  | el (value : UInt64) : s.Sets (s.writeEl value)
  | spsel (value : Bool) : s.Sets (s.writeSpsel value)
  | daif (value : UInt64) : s.Sets (s.writeDaif value)
  | slot (slot : Fin SysReg.slotCount) (value : UInt64) : s.Sets (s.writeSlot slot value)
  | sysReg (selector : Nat) (value : UInt64) : s.Sets (s.writeSysReg selector value)

lemma normalized_reset : reset.Normalized where
  flags f := by cases f <;> exact .inl rfl
  el := by decide
  spsel := by decide
  daif := by decide

variable {s : State}

/-- What is normalized does not hang on the other words. -/
lemma Normalized.congr {s' : State} (h : s.Normalized) (hflags : s'.flags = s.flags)
    (hel : s'.el = s.el) (hspsel : s'.spsel = s.spsel) (hdaif : s'.daif = s.daif) :
    s'.Normalized where
  flags f := by
    rw [hflags]
    exact h.flags f
  el := hel ▸ h.el
  spsel := hspsel ▸ h.spsel
  daif := hdaif ▸ h.daif

lemma and_lt {a mask : UInt64} {n : Nat} (h : mask.toNat < n) : (a &&& mask).toNat < n := by
  rw [UInt64.toNat_and]
  exact Nat.lt_of_le_of_lt Nat.and_le_right h

lemma toUInt64_lt (b : Bool) : b.toUInt64 < 2 := by cases b <;> decide

lemma and_mask_and_not (value mask : UInt64) : value &&& mask &&& ~~~mask = 0 := by
  rw [UInt64.and_assoc, UInt64.and_not_self, UInt64.and_zero]

namespace Normalized

variable (h : s.Normalized)
include h

lemma writeX (n : Nat) (width : Width) (value : UInt64) : (s.writeX n width value).Normalized := by
  rw [State.writeX]
  split
  · exact h.congr rfl rfl rfl rfl
  · exact h

lemma writeFlag (f : Flag) (value : Bool) : (s.writeFlag f value).Normalized where
  flags g := by
    by_cases hfg : f.index.val = g.index.val
    · have hset : (s.writeFlag f value).flags.get g.index = value.toUInt64 := by
        change (s.flags.set f.index value.toUInt64)[g.index] = _
        simp [hfg]
      rw [hset]
      cases value
      · exact .inl rfl
      · exact .inr rfl
    · have hset : (s.writeFlag f value).flags.get g.index = s.flags.get g.index :=
        Vector.getElem_set_ne f.index.isLt g.index.isLt hfg
      rw [hset]
      exact h.flags g
  el := h.el
  spsel := h.spsel
  daif := h.daif

lemma writeNzcv (flags : Nzcv) : (s.writeNzcv flags).Normalized :=
  (((h.writeFlag _ _).writeFlag _ _).writeFlag _ _).writeFlag _ _

lemma writeEl (value : UInt64) : (s.writeEl value).Normalized where
  flags := h.flags
  el := UInt64.lt_iff_toNat_lt.2 (and_lt (by decide))
  spsel := h.spsel
  daif := h.daif

/-- The stack selector is a bit, whichever way it is written. -/
lemma setSpsel {value : UInt64} (hv : value < 2) : ({ s with spsel := value } : State).Normalized where
  flags := h.flags
  el := h.el
  spsel := hv
  daif := h.daif

lemma writeDaif (value : UInt64) : (s.writeDaif value).Normalized where
  flags := h.flags
  el := h.el
  spsel := h.spsel
  daif := and_mask_and_not value SysReg.daifMask

lemma writeBinding (value : UInt64) (b : SysReg.Binding) : (s.writeBinding value b).Normalized := by
  cases b with
  | backed slot => exact h.congr rfl rfl rfl rfl
  | const value => exact h
  | currentEl => exact h
  | spsel => exact h.setSpsel (UInt64.lt_iff_toNat_lt.2 (and_lt (by decide)))
  | nzcv => exact h.writeNzcv _
  | daif => exact h.writeDaif value
  | stackPointer el => exact h.congr rfl rfl rfl rfl
  | elr el => exact h.congr rfl rfl rfl rfl
  | spsr el => exact h.congr rfl rfl rfl rfl

lemma writeSysReg (selector : Nat) (value : UInt64) : (s.writeSysReg selector value).Normalized := by
  rw [State.writeSysReg]
  split
  · exact h.writeBinding value _
  · exact h

/-- Setters keep a state normalized. -/
theorem sets {s' : State} (hs : s.Sets s') : s'.Normalized := by
  cases hs with
  | x n width value => exact h.writeX n width value
  | sp value => exact h.congr rfl rfl rfl rfl
  | spEl el value => exact h.congr rfl rfl rfl rfl
  | elr el value => exact h.congr rfl rfl rfl rfl
  | spsr el value => exact h.congr rfl rfl rfl rfl
  | flag f value => exact h.writeFlag f value
  | nzcv flags => exact h.writeNzcv flags
  | el value => exact h.writeEl value
  | spsel value => exact h.setSpsel (toUInt64_lt value)
  | daif value => exact h.writeDaif value
  | slot slot value => exact h.congr rfl rfl rfl rfl
  | sysReg selector value => exact h.writeSysReg selector value

/-- Every write to a place is a write by a setter, or to a scratch local. -/
theorem writePlace (place : Ir.Place) (value : UInt64) : (s.writePlace place value).Normalized := by
  cases place with
  | x n => exact h.writeX n .w64 value
  | sp => exact h.sets (.sp value)
  | spEl el => exact h.sets (.spEl el value)
  | flag f => exact h.writeFlag f _
  | el => exact h.writeEl value
  | spsel => exact h.setSpsel (toUInt64_lt _)
  | daif => exact h.writeDaif value
  | elr bank => exact h.sets (.elr _ value)
  | spsr bank => exact h.sets (.spsr _ value)
  | sys slot => exact h.sets (.slot slot value)
  | scratch l => exact h

/-! ### Selected banks -/

lemma el_lt : s.el.toNat < 4 := UInt64.lt_iff_toNat_lt.1 h.el

lemma spsel_lt : s.spsel.toNat < 2 := UInt64.lt_iff_toNat_lt.1 h.spsel

lemma readEl_eq : s.readEl = s.el.toNat := Nat.mod_eq_of_lt h.el_lt

/-- The number of the selected stack pointer is the product of the level and the selector. -/
lemma spIndex_eq : s.spIndex.val = (s.el * s.spsel).toNat := by
  have hel := h.el_lt
  obtain hs | hs : s.spsel = 0 ∨ s.spsel = 1 := by
    have := h.spsel_lt
    simp only [← UInt64.toNat_inj, UInt64.toNat_zero, UInt64.toNat_one]
    omega
  · rw [State.spIndex, hs, if_neg (by decide), UInt64.mul_zero]
    rfl
  · rw [State.spIndex, hs, if_pos (by decide), UInt64.mul_one]
    exact Nat.mod_eq_of_lt hel

/-- The bank of the current level is the level without one, except for level 0. -/
lemma bankIndex_eq : (bankIndex s.readEl).val = (s.el - (s.el != 0).toUInt64).toNat := by
  have hlevels : ∀ n < 4, (bankIndex (UInt64.ofNat n).toNat).val =
      (UInt64.ofNat n - (UInt64.ofNat n != 0).toUInt64).toNat := by
    decide
  have hel := hlevels s.el.toNat h.el_lt
  rw [UInt64.ofNat_toNat] at hel
  rw [h.readEl_eq, hel]

end Normalized

end State

end Dynarec.Cpu
