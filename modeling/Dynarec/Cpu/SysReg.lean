/-!
# System registers

A system register is named by a selector, the five numbers `op0`, `op1`, `CRn`, `CRm` and `op2`
packed into sixteen bits. A sparse set of registers is kept; any other one reads as zero, ignores
writes and has a generic name built from its five numbers.
-/

namespace Dynarec.Cpu.SysReg

/-- Number of words that registers with plain storage use. -/
abbrev slotCount : Nat := 20

/-- The bits of `DAIF` that exist: D, A, I and F in bits 9 to 6. -/
def daifMask : UInt64 := 0x3c0

/-- Where an access to a system register goes. -/
inductive Binding where
  | backed (slot : Fin slotCount)
  | const (value : UInt64)
  | currentEl
  | spsel
  | nzcv
  | daif
  | stackPointer (el : Nat)
  | elr (el : Nat)
  | spsr (el : Nat)
  deriving DecidableEq, Repr

/-- A system register that is kept. Without a read binding it reads as zero; without a write
binding a write is discarded. -/
structure Register where
  name : String
  selector : Nat
  read : Option Binding
  write : Option Binding
  deriving DecidableEq, Repr

/-- Pack the five numbers of a register into a selector, each cut to its size. -/
def pack (op0 op1 crn crm op2 : Nat) : Nat :=
  op0 % 4 * 16384 + op1 % 8 * 2048 + crn % 16 * 128 + crm % 16 * 8 + op2 % 8

/-- The five numbers of a selector. -/
def split (selector : Nat) : Nat × Nat × Nat × Nat × Nat :=
  (selector / 16384 % 4, selector / 2048 % 8, selector / 128 % 16, selector / 8 % 16, selector % 8)

/-- A register that can be read and written. -/
def readWrite (name : String) (selector : Nat) (binding : Binding) : Register :=
  ⟨name, selector, some binding, some binding⟩

/-- A register whose writes are discarded. -/
def readOnly (name : String) (selector : Nat) (binding : Binding) : Register :=
  ⟨name, selector, some binding, none⟩

/-- The registers that are kept. -/
def all : List Register :=
  [ readOnly "midr_el1" (pack 3 0 0 0 0) (.const 0x410fd034),
    readOnly "mpidr_el1" (pack 3 0 0 0 5) (.const 0x80000000),
    readOnly "id_aa64pfr0_el1" (pack 3 0 0 4 0) (.const 0x00ff1111),
    readWrite "sctlr_el1" (pack 3 0 1 0 0) (.backed 0),
    readWrite "cpacr_el1" (pack 3 0 1 0 2) (.backed 1),
    readWrite "ttbr0_el1" (pack 3 0 2 0 0) (.backed 2),
    readWrite "ttbr1_el1" (pack 3 0 2 0 1) (.backed 3),
    readWrite "tcr_el1" (pack 3 0 2 0 2) (.backed 4),
    readWrite "spsr_el1" (pack 3 0 4 0 0) (.spsr 1),
    readWrite "elr_el1" (pack 3 0 4 0 1) (.elr 1),
    readWrite "sp_el0" (pack 3 0 4 1 0) (.stackPointer 0),
    readWrite "spsel" (pack 3 0 4 2 0) .spsel,
    readOnly "currentel" (pack 3 0 4 2 2) .currentEl,
    readWrite "esr_el1" (pack 3 0 5 2 0) (.backed 5),
    readWrite "far_el1" (pack 3 0 6 0 0) (.backed 6),
    readWrite "mair_el1" (pack 3 0 10 2 0) (.backed 7),
    readWrite "vbar_el1" (pack 3 0 12 0 0) (.backed 8),
    readWrite "contextidr_el1" (pack 3 0 13 0 1) (.backed 9),
    readWrite "tpidr_el1" (pack 3 0 13 0 4) (.backed 10),
    readOnly "ctr_el0" (pack 3 3 0 0 1) (.const 0x8444c004),
    readOnly "dczid_el0" (pack 3 3 0 0 7) (.const 0x4),
    readWrite "nzcv" (pack 3 3 4 2 0) .nzcv,
    readWrite "daif" (pack 3 3 4 2 1) .daif,
    readWrite "tpidr_el0" (pack 3 3 13 0 2) (.backed 11),
    readWrite "tpidrro_el0" (pack 3 3 13 0 3) (.backed 12),
    readWrite "cntfrq_el0" (pack 3 3 14 0 0) (.backed 13),
    readWrite "sctlr_el2" (pack 3 4 1 0 0) (.backed 14),
    readWrite "hcr_el2" (pack 3 4 1 1 0) (.backed 15),
    readWrite "spsr_el2" (pack 3 4 4 0 0) (.spsr 2),
    readWrite "elr_el2" (pack 3 4 4 0 1) (.elr 2),
    readWrite "sp_el1" (pack 3 4 4 1 0) (.stackPointer 1),
    readWrite "vbar_el2" (pack 3 4 12 0 0) (.backed 16),
    readWrite "sctlr_el3" (pack 3 6 1 0 0) (.backed 17),
    readWrite "scr_el3" (pack 3 6 1 1 0) (.backed 18),
    readWrite "spsr_el3" (pack 3 6 4 0 0) (.spsr 3),
    readWrite "elr_el3" (pack 3 6 4 0 1) (.elr 3),
    readWrite "sp_el2" (pack 3 6 4 1 0) (.stackPointer 2),
    readWrite "vbar_el3" (pack 3 6 12 0 0) (.backed 19) ]

/-- The selector of `SPSel`. -/
def spselSelector : Nat := pack 3 0 4 2 0

/-- The register of a selector, if it is kept. -/
def lookup (selector : Nat) : Option Register := all.find? (·.selector == selector)

/-- The name of a selector in listings. -/
def name (selector : Nat) : String :=
  match lookup selector with
  | some register => register.name
  | none =>
    let (op0, op1, crn, crm, op2) := split selector
    s!"s{op0}_{op1}_c{crn}_c{crm}_{op2}"

end Dynarec.Cpu.SysReg
