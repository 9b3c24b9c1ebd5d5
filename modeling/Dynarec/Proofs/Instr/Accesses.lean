import Dynarec.Proofs.Instr.Additions
import Dynarec.Proofs.Memory

/-!
# Loads and stores

The reference for the instructions that access memory: where the word of such an instruction says that its
elements are, what goes between them and the registers, and which register is the base that moves. A load takes
all its elements before it writes a register. An access that fails leaves the registers as they are.
-/

namespace Dynarec.Instr

open Bits (bit)
open Cpu (State)

/-! ### Addresses -/

/-- Where an access finds its first element: at a displacement from the instruction, or at a base register and
an offset or another register, which is extended. As a base, register 31 is the stack pointer. -/
inductive Addressing where
  | literal (offset : UInt64)
  | base (mode : AddrMode) (rn : Nat) (offset : UInt64)
  | indexed (rn rm option amount : Nat)

namespace Addressing

/-- The address of the first element. With a post-index the offset does not count. -/
def addr (pc : UInt64) (s : State) : Addressing → UInt64
  | .literal offset => pc + offset
  | .base .postIndex rn _ => s.readXOrSp rn
  | .base .offset rn offset | .base .preIndex rn offset => s.readXOrSp rn + offset
  | .indexed rn rm option amount => s.readXOrSp rn + extendedValue (s.readX rm .w64) option amount

/-- Move the base by the offset, from where it was before, if the mode asks for it. -/
def moveBase (before after : State) : Addressing → State
  | .base .preIndex rn offset | .base .postIndex rn offset =>
    after.writeXOrSp rn .w64 (before.readXOrSp rn + offset)
  | .base .offset _ _ | .literal _ | .indexed .. => after

end Addressing

/-! ### Elements -/

/-- An element of a size, extended with zeros or with its sign to a width, and with zeros above. -/
def loadedValue (size : AccessSize) (w : Width) (signed : Bool) (v : UInt64) : UInt64 :=
  let low : BitVec (8 * size.bytes) := v.toBitVec.setWidth _
  let result : BitVec w.bits := if signed then low.signExtend w.bits else low.setWidth w.bits
  .ofBitVec (result.setWidth 64)

/-- Write registers with elements. Register 31 is not written. -/
def writeLoaded (size : AccessSize) (w : Width) (signed : Bool) (elements : List (Nat × UInt64))
    (s : State) : State :=
  elements.foldl (fun s (rt, v) => s.writeX rt .w64 (loadedValue size w signed v)) s

/-- Store the low bytes of values, each at its address. -/
def storeAll (size : AccessSize) (elements : List (UInt64 × UInt64)) : EStateM Memory.Error Memory Unit :=
  elements.forM fun (addr, v) => Memory.write addr size v

/-- What an access leaves: the error that it fails with, if it does, the registers and memory. -/
structure Outcome where
  error : Option Memory.Error
  cpu : State
  mem : Memory

/-- The addresses of elements that follow each other, which wrap. -/
def elementAddrs (size : AccessSize) (count : Nat) (addr : UInt64) : List UInt64 :=
  (List.range count).map fun i => addr + UInt64.ofNat (i * size.bytes)

/-- What is left when elements go between memory, from an address on, and some registers. All of them are loaded
before a register is written. They are stored in order, and those before one that fails stay stored. A prefetch
accesses nothing. -/
def transferred (t : Transfer) (size : AccessSize) (regs : List Nat) (addr : UInt64) (cpu : State)
    (mem : Memory) : Outcome :=
  let addrs := elementAddrs size regs.length addr
  match t with
  | .prefetch => ⟨none, cpu, mem⟩
  | .load w signed =>
    match addrs.mapM (mem.read · size) with
    | .error e => ⟨some e, cpu, mem⟩
    | .ok values => ⟨none, writeLoaded size w signed (regs.zip values) cpu, mem⟩
  | .store =>
    match storeAll size (addrs.zip (regs.map (cpu.readX · .w64))) mem with
    | .error e mem => ⟨some e, cpu, mem⟩
    | .ok _ mem => ⟨none, cpu, mem⟩

/-- The base moves last, if nothing has failed. -/
def Outcome.moveBase (x : Addressing) (before : State) (o : Outcome) : Outcome :=
  match o.error with
  | some _ => o
  | none => { o with cpu := x.moveBase before o.cpu }

/-- An access of one register, or of two whose elements follow each other. -/
structure Access where
  transfer : Transfer
  size : AccessSize
  regs : List Nat
  addressing : Addressing

/-- What an access of the instruction at an address leaves. -/
def Access.apply (a : Access) (pc : UInt64) (cpu : State) (mem : Memory) : Outcome :=
  (transferred a.transfer a.size a.regs (a.addressing.addr pc cpu) cpu mem).moveBase a.addressing cpu

/-! ### Words -/

/-- A number of `bits` bits, extended with its sign, shifted left. -/
def signedField (bits n scale : Nat) : UInt64 :=
  .ofBitVec ((BitVec.ofNat bits n).signExtend 64 <<< scale)

/-- The bits of a field: those of its number, and its sign above. -/
lemma bit_signedField {bits n scale i : Nat} (h0 : 0 < bits) (hi : i < 64) :
    bit (signedField bits n scale) i = (decide (scale ≤ i) &&
      if i - scale < bits then n.testBit (i - scale) else n.testBit (bits - 1)) := by
  have hlast : bits - 1 < bits := by omega
  have hin : i - scale < 64 := by omega
  show ((BitVec.ofNat bits n).signExtend 64 <<< scale).getLsbD i = _
  rw [BitVec.getLsbD_shiftLeft, BitVec.getLsbD_signExtend, BitVec.msb_eq_getLsbD_last,
    BitVec.getLsbD_ofNat, BitVec.getLsbD_ofNat]
  by_cases hle : scale ≤ i <;> by_cases hlt : i - scale < bits <;> simp [hi, hle, hlt, hlast, hin]

/-- A field whose number is scaled before its sign is extended. -/
lemma signExtend_scaled {bits scale : Nat} (n : Nat) (h0 : 0 < bits) (hle : bits + scale ≤ 64) :
    Bits.signExtend (UInt64.ofNat (n * 2 ^ scale)) (bits + scale) = signedField bits n scale := by
  have hbit : ∀ i < 64, bit (UInt64.ofNat (n * 2 ^ scale)) i =
      (decide (scale ≤ i) && n.testBit (i - scale)) := by
    intro i hi
    show (BitVec.ofNat 64 (n * 2 ^ scale)).getLsbD i = _
    rw [BitVec.getLsbD_ofNat, decide_eq_true hi, Bool.true_and, Nat.testBit_mul_two_pow]
  apply Bits.eq_of_bit
  intro i hi
  rw [Bits.bit_signExtend (by omega) hle hi, bit_signedField h0 hi, hbit _ hi, hbit _ (by omega)]
  by_cases hlt : i < bits + scale
  · by_cases hscale : scale ≤ i
    · have hin : i - scale < bits := by omega
      simp [hlt, hscale, hin]
    · simp [hlt, hscale]
  · have hout : ¬ i - scale < bits := by omega
    have hscale : scale ≤ i ∧ scale ≤ bits + scale - 1 := by omega
    have hsub : bits + scale - 1 - scale = bits - 1 := by omega
    simp [hlt, hout, hscale, hsub]

/-- A field that is shifted after its sign is extended. -/
lemma shiftLeft_signedField {bits n scale : Nat} (h0 : 0 < bits) (hscale : scale < 64) :
    signedField bits n 0 <<< UInt64.ofNat scale = signedField bits n scale := by
  apply Bits.eq_of_bit
  intro i hi
  rw [Bits.bit_shiftLeft hscale, bit_signedField h0 hi, bit_signedField h0 (by omega)]
  simp [hi]

/-- What is done with an element, by the size field and the operation field of an access of one register. -/
def transferOf (size opc : Nat) : Option Transfer :=
  match opc with
  | 0 => some .store
  | 1 => some (.load (if size = 3 then .w64 else .w32) false)
  | 2 => some (if size = 3 then .prefetch else .load .w64 true)
  | _ => if size < 2 then some (.load .w32 true) else none

/-- What is loaded from a displacement, by the operation field. -/
def literalOf (opc : Nat) : Transfer × AccessSize :=
  match opc with
  | 0 => (.load .w32 false, .word)
  | 1 => (.load .w64 false, .double)
  | 2 => (.load .w64 true, .word)
  | _ => (.prefetch, .double)

/-- What is done with the elements of a pair, by its operation field and whether it is a load. Words are loaded
with their sign by the modes that are not a hint only. -/
def pairOf (opc : Nat) (load hint : Bool) : Option (Transfer × AccessSize) :=
  match opc with
  | 0 => some (if load then .load .w32 false else .store, .word)
  | 1 => if load && !hint then some (.load .w64 true, .word) else none
  | 2 => some (if load then .load .w64 false else .store, .double)
  | _ => none

/-- The mode of a pair. -/
def pairMode : Nat → AddrMode
  | 1 => .postIndex
  | 3 => .preIndex
  | _ => .offset

/-- The classes of instructions that access memory. -/
inductive AccessClass where
  | literal
  | unsigned
  | unscaled
  | postIndex
  | preIndex
  | register
  | pair
  deriving DecidableEq

namespace AccessClass

/-- The bits that are fixed in a class, as a mask and the values of the bits. -/
def fixed : AccessClass → UInt32 × UInt32
  | .literal => (0x3f000000, 0x18000000)
  | .unsigned => (0x3f000000, 0x39000000)
  | .unscaled => (0x3f200c00, 0x38000000)
  | .postIndex => (0x3f200c00, 0x38000400)
  | .preIndex => (0x3f200c00, 0x38000c00)
  | .register => (0x3f200c00, 0x38200800)
  | .pair => (0x3e000000, 0x28000000)

/-- A word is of a class. -/
def Encodes (c : AccessClass) (word : UInt32) : Prop := word &&& c.fixed.1 = c.fixed.2

instance (c : AccessClass) (word : UInt32) : Decidable (c.Encodes word) :=
  inferInstanceAs (Decidable (_ = _))

/-- The access that a word of a class asks for; there is none for words that are reserved. -/
def read? (c : AccessClass) (word : UInt32) : Option Access :=
  let size := bitsAt word 30 2
  let rn := bitsAt word 5 5
  let rt := bitsAt word 0 5
  let transfer := transferOf size (bitsAt word 22 2)
  let single (x : Addressing) (t : Transfer) : Access := ⟨t, .ofLog2 size, [rt], x⟩
  let imm9 := signedField 9 (bitsAt word 12 9) 0
  match c with
  | .literal =>
    let (transfer, size) := literalOf (bitsAt word 30 2)
    some ⟨transfer, size, [rt], .literal (signedField 19 (bitsAt word 5 19) 2)⟩
  | .unsigned => transfer.map (single (.base .offset rn (UInt64.ofNat (bitsAt word 10 12 * 2 ^ size))))
  | .unscaled => transfer.map (single (.base .offset rn imm9))
  -- A base does not move with a prefetch.
  | .postIndex => (transfer.filter (· ≠ .prefetch)).map (single (.base .postIndex rn imm9))
  | .preIndex => (transfer.filter (· ≠ .prefetch)).map (single (.base .preIndex rn imm9))
  | .register =>
    let option := bitsAt word 13 3
    let amount := if bitsAt word 12 1 = 1 then size else 0
    -- Only words and double words are extended.
    if option % 4 < 2 then none
    else transfer.map (single (.indexed rn (bitsAt word 16 5) option amount))
  | .pair =>
    let index := bitsAt word 23 2
    (pairOf size (bitsAt word 22 1 == 1) (index == 0)).map fun (transfer, size) =>
      ⟨transfer, size, [rt, bitsAt word 10 5],
        .base (pairMode index) rn (signedField 7 (bitsAt word 15 7) size.log2)⟩

end AccessClass

end Dynarec.Instr
