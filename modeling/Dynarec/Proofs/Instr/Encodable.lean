import Dynarec.Proofs.Instr.Decoding

/-!
# What the forms are read as

The instruction that a form reads out of a word has operands within the bounds of its fields, and a form asks its
word for no field that its pattern does not declare: it is not read only where the encoding is not allocated.
-/

namespace Dynarec

open Instr

namespace Instr

/-- Whether there is a memory instruction for elements of a size. -/
def Transfer.moves (size : AccessSize) : Transfer → Bool
  | .store => true
  | .load .w64 false | .prefetch => size == .double
  | .load .w32 false | .load .w64 true => size != .double
  | .load .w32 true => size == .byte || size == .half

/-- Whether there is a memory instruction with a displacement for elements of a size. -/
def Transfer.movesLiteral (size : AccessSize) : Transfer → Bool
  | .load .w64 false | .prefetch => size == .double
  | .load .w32 false | .load .w64 true => size == .word
  | .load .w32 true | .store => false

/-- Whether there is a memory instruction for pairs of elements of a size. -/
def pairMoves (load nonTemporal : Bool) (size : AccessSize) (signed : Bool) : Bool :=
  if signed then size == .word && load && !nonTemporal else size == .word || size == .double

/-- The bit that selects a width. -/
def sizeBit : Width → Nat
  | .w32 => 0
  | .w64 => 1

end Instr

/-- The operands of an instruction are those that an encoding can hold. -/
def Instr.Encodable : Instr → Prop
  | .branchCond .. | .branch .. | .exceptionReturn => True
  | .compareBranch _ _ rt _ => rt < 32
  | .testBranch _ bit rt _ => bit < 64 ∧ rt < 32
  | .branchReg _ rn => rn < 32
  | .ret rn => rn < 32
  | .exception _ imm => imm < 2 ^ 16
  | .hint number => number < 2 ^ 7
  | .barrier _ option => option < 2 ^ 4
  | .writePstate _ imm => imm < 2 ^ 4
  | .sys op1 crn crm op2 rt => op1 < 2 ^ 3 ∧ crn < 2 ^ 4 ∧ crm < 2 ^ 4 ∧ op2 < 2 ^ 3 ∧ rt < 32
  | .writeSysReg _ rt => rt < 32
  | .readSysReg _ rt => rt < 32
  | .literal transfer size rt _ => transfer.movesLiteral size ∧ rt < 32
  | .access transfer size _ _ _ rn rt => transfer.moves size ∧ rn < 32 ∧ rt < 32
  | .accessIndexed transfer size option _ rm rn rt =>
    transfer.moves size ∧ option ∈ [2, 3, 6, 7] ∧ rm < 32 ∧ rn < 32 ∧ rt < 32
  | .pair load nonTemporal size signed _ _ rt2 rn rt =>
    pairMoves load nonTemporal size signed ∧ rt2 < 32 ∧ rn < 32 ∧ rt < 32
  | .address _ _ rd => rd < 32
  | .addSubImm _ _ _ _ imm rn rd => imm < 2 ^ 12 ∧ rn < 32 ∧ rd < 32
  | .logicalImm _ _ _ rn rd => rn < 32 ∧ rd < 32
  | .moveWide width _ shift imm rd => shift < width.bits ∧ imm < 2 ^ 16 ∧ rd < 32
  | .bitfield width _ immr imms wmask tmask rn rd =>
    Bits.decodeMasks (sizeBit width) imms immr false width = some (wmask, tmask) ∧
      immr < 2 ^ 6 ∧ imms < 2 ^ 6 ∧ rn < 32 ∧ rd < 32
  | .extract width lsb rm rn rd => lsb < width.bits ∧ rm < 32 ∧ rn < 32 ∧ rd < 32
  | .logicalReg width _ _ shift amount rm rn rd =>
    shift < 4 ∧ amount < width.bits ∧ rm < 32 ∧ rn < 32 ∧ rd < 32
  | .addSubShifted width _ _ shift amount rm rn rd =>
    shift < 4 ∧ amount < width.bits ∧ rm < 32 ∧ rn < 32 ∧ rd < 32
  | .addSubExtended _ _ _ option amount rm rn rd =>
    option < 8 ∧ amount ≤ 4 ∧ rm < 32 ∧ rn < 32 ∧ rd < 32
  | .addSubCarry _ _ _ rm rn rd => rm < 32 ∧ rn < 32 ∧ rd < 32
  | .condCompare _ _ second _ nzcv rn =>
    (match second with
      | .imm n => n < 32
      | .reg n => n < 32) ∧ nzcv < 2 ^ 4 ∧ rn < 32
  | .condSelect _ _ _ _ rm rn rd => rm < 32 ∧ rn < 32 ∧ rd < 32
  | .twoSource _ _ rm rn rd => rm < 32 ∧ rn < 32 ∧ rd < 32
  | .threeSource width product _ rm ra rn rd =>
    (product ≠ .plain → width = .w64) ∧ rm < 32 ∧ ra < 32 ∧ rn < 32 ∧ rd < 32

/-- An instruction raises an exception. -/
def Instr.raises : Instr → Bool
  | .exception .. => true
  | _ => false

namespace Instr.Form

open Encoding (Pattern Field Fields Constraint)

/-! ### Fields -/

/-- The fields of a pattern, with their names, widths and constraints. -/
abbrev Signature := List (String × Nat × Option Constraint)

/-- The signature of a pattern that can be read. -/
def signatureOf (p : Except Encoding.PatternError Pattern) : Option Signature :=
  p.toOption.map fun p => p.fields.map fun f => (f.name, f.width, f.constraint)

/-- Something holds of all values of the fields of a signature. -/
def ForFields : Signature → (List (String × Nat) → Prop) → Prop
  | [], P => P []
  | (name, width, c) :: rest, P =>
    ∀ v < 2 ^ width, (∀ c' ∈ c, c'.admits v) → ForFields rest fun values => P ((name, v) :: values)

/-- What holds of all values holds of those of a word whose fields are admitted. -/
lemma ForFields.extract {fields : List Field} {P : List (String × Nat) → Prop} (word : UInt32)
    (h : ForFields (fields.map fun f => (f.name, f.width, f.constraint)) P)
    (hall : fields.all (·.admits word) = true) : P (fields.map fun f => (f.name, f.extract word)) := by
  induction fields generalizing P with
  | nil => exact h
  | cons f fields ih =>
    rw [List.all_cons, Bool.and_eq_true] at hall
    refine ih (h (f.extract word) ?_ ?_) hall.2
    · rw [Field.extract, Nat.one_shiftLeft]
      exact Nat.mod_lt _ (Nat.two_pow_pos _)
    · intro c hc
      have hadmits := hall.1
      rw [Field.admits, Option.mem_def.1 hc] at hadmits
      exact hadmits

/-! ### Reading -/

/-- What a form reads, if it reads something, has operands that an encoding can hold. It raises an exception
if the form is only listed. Otherwise the encoding is not allocated. -/
def Fair (compiles : Bool) : Except FieldError Instr → Prop
  | .ok i => i.Encodable ∧ i.raises = !compiles
  | .error e => e = .unallocated

section
variable {compiles : Bool} {α : Type}

lemma fair_require {p : Bool} {f : Unit → Except FieldError Instr} (h : p = true → Fair compiles (f ())) :
    Fair compiles (require p >>= f) := by
  cases p with
  | true => exact h rfl
  | false => rfl

lemma fair_allocated {a : Option α} {f : α → Except FieldError Instr}
    (h : ∀ x, a = some x → Fair compiles (f x)) : Fair compiles (allocated a >>= f) := by
  cases a with
  | some x => exact h x rfl
  | none => rfl

end

lemma moves_transfer {size opc : Nat} {t : Transfer} (hsize : size < 2 ^ 2) (hopc : opc < 2 ^ 2)
    (h : transfer? size opc = some t) : t.moves (.ofLog2 size) := by
  have hall : ∀ size < 4, ∀ opc < 4, ∀ t ∈ transfer? size opc, t.moves (.ofLog2 size) := by decide
  exact hall size hsize opc hopc t h

lemma pairMoves_layout {opc index : Nat} {load signed : Bool} {size : AccessSize}
    (h : pairLayout? opc index load = some (size, signed)) : pairMoves load (index == 0) size signed := by
  unfold pairLayout? at h
  split at h
  · cases h
    rfl
  · cases h
    rfl
  · split at h
    · next hload =>
      rw [Bool.and_eq_true] at hload
      cases h
      rw [pairMoves, if_pos rfl, hload.1, Bool.and_true, ← bne, hload.2]
      rfl
    · cases h
  · cases h

/-- A position that is admitted lies in the register. -/
lemma lt_bits {w : Width} {n : Nat} (hn : n < 2 ^ 6) (h : (w == .w64 || decide (n < 32)) = true) :
    n < w.bits := by
  cases w with
  | w32 => simpa [Width.bits] using h
  | w64 => exact hn

lemma sizeBit_ofSizeBit {sf : Nat} (h : sf < 2 ^ 1) : sizeBit (.ofSizeBit sf) = sf := by
  have : ∀ sf < 2, sizeBit (.ofSizeBit sf) = sf := by decide
  exact this sf h

variable (word : UInt32)

lemma fair_branchCond (consistent : Bool) :
    ForFields [("imm19", 19, none), ("cond", 4, none)] fun values =>
      Fair true (branchCond consistent ⟨word, values⟩) := by
  intro imm _ _ cond _ _
  exact ⟨trivial, rfl⟩

lemma fair_compareBranch :
    ForFields [("sf", 1, none), ("op", 1, none), ("imm19", 19, none), ("Rt", 5, none)] fun values =>
      Fair true (compareBranch ⟨word, values⟩) := by
  intro sf _ _ op _ _ imm _ _ rt hrt _
  exact ⟨hrt, rfl⟩

lemma fair_testBranch :
    ForFields [("b5", 1, none), ("op", 1, none), ("b40", 5, none), ("imm14", 14, none), ("Rt", 5, none)]
      fun values => Fair true (testBranch ⟨word, values⟩) := by
  intro b5 hb5 _ op _ _ b40 hb40 _ imm _ _ rt hrt _
  exact ⟨⟨by omega, hrt⟩, rfl⟩

lemma fair_branch : ForFields [("op", 1, none), ("imm26", 26, none)] fun values =>
    Fair true (branch ⟨word, values⟩) := by
  intro op _ _ imm _ _
  exact ⟨trivial, rfl⟩

lemma fair_branchReg (link : Bool) : ForFields [("Rn", 5, none)] fun values =>
    Fair true (branchReg link ⟨word, values⟩) := by
  intro rn hrn _
  exact ⟨hrn, rfl⟩

lemma fair_ret : ForFields [("Rn", 5, none)] fun values => Fair true (ret ⟨word, values⟩) := by
  intro rn hrn _
  exact ⟨hrn, rfl⟩

lemma fair_exceptionReturn (_ : UInt32) : ForFields [] fun _ => Fair true (.ok .exceptionReturn) :=
  ⟨trivial, rfl⟩

lemma fair_exception (kind : ExceptionKind) : ForFields [("imm16", 16, none)] fun values =>
    Fair false (exception kind ⟨word, values⟩) := by
  intro imm himm _
  exact ⟨himm, rfl⟩

lemma fair_hint : ForFields [("CRm", 4, none), ("op2", 3, none)] fun values =>
    Fair true (hint ⟨word, values⟩) := by
  intro crm hcrm _ op2 hop2 _
  exact ⟨show crm * 8 + op2 < 2 ^ 7 by omega, rfl⟩

lemma fair_barrier (kind : Barrier) : ForFields [("CRm", 4, none)] fun values =>
    Fair true (barrier kind ⟨word, values⟩) := by
  intro crm hcrm _
  exact ⟨hcrm, rfl⟩

lemma fair_writePstate (target : PstateField) : ForFields [("CRm", 4, none)] fun values =>
    Fair true (writePstate target ⟨word, values⟩) := by
  intro crm hcrm _
  exact ⟨hcrm, rfl⟩

lemma fair_sys : ForFields [("op1", 3, none), ("CRn", 4, none), ("CRm", 4, none), ("op2", 3, none),
    ("Rt", 5, none)] fun values => Fair true (sys ⟨word, values⟩) := by
  intro op1 hop1 _ crn hcrn _ crm hcrm _ op2 hop2 _ rt hrt _
  exact ⟨⟨hop1, hcrn, hcrm, hop2, hrt⟩, rfl⟩

lemma fair_writeSysReg : ForFields [("o0", 1, none), ("op1", 3, none), ("CRn", 4, none), ("CRm", 4, none),
    ("op2", 3, none), ("Rt", 5, none)] fun values => Fair true (writeSysReg ⟨word, values⟩) := by
  intro o0 _ _ op1 _ _ crn _ _ crm _ _ op2 _ _ rt hrt _
  exact ⟨hrt, rfl⟩

lemma fair_readSysReg : ForFields [("o0", 1, none), ("op1", 3, none), ("CRn", 4, none), ("CRm", 4, none),
    ("op2", 3, none), ("Rt", 5, none)] fun values => Fair true (readSysReg ⟨word, values⟩) := by
  intro o0 _ _ op1 _ _ crn _ _ crm _ _ op2 _ _ rt hrt _
  exact ⟨hrt, rfl⟩

lemma fair_literal : ForFields [("opc", 2, none), ("imm19", 19, none), ("Rt", 5, none)] fun values =>
    Fair true (literal ⟨word, values⟩) := by
  intro opc hopc _ imm _ _ rt hrt _
  refine ⟨⟨?_, hrt⟩, rfl⟩
  match opc, hopc with
  | 0, _ | 1, _ | 2, _ | 3, _ => rfl

lemma fair_accessUnsigned : ForFields [("size", 2, none), ("opc", 2, none), ("imm12", 12, none),
    ("Rn", 5, none), ("Rt", 5, none)] fun values => Fair true (accessUnsigned ⟨word, values⟩) := by
  intro size hsize _ opc hopc _ imm _ _ rn hrn _ rt hrt _
  refine fair_allocated (a := transfer? size opc) fun t ht => ⟨⟨?_, hrn, hrt⟩, rfl⟩
  exact moves_transfer hsize hopc ht

lemma fair_accessSigned (mode : AddrMode) : ForFields [("size", 2, none), ("opc", 2, none), ("imm9", 9, none),
    ("Rn", 5, none), ("Rt", 5, none)] fun values => Fair true (accessSigned mode ⟨word, values⟩) := by
  intro size hsize _ opc hopc _ imm _ _ rn hrn _ rt hrt _
  refine fair_allocated (a := transfer? size opc) fun t ht => ?_
  refine fair_require (p := t != .prefetch || mode == .offset) fun _ => ⟨⟨?_, hrn, hrt⟩, rfl⟩
  exact moves_transfer hsize hopc ht

lemma fair_accessIndexed : ForFields [("size", 2, none), ("opc", 2, none), ("Rm", 5, none),
    ("option", 3, some (.only [2, 3, 6, 7])), ("S", 1, none), ("Rn", 5, none), ("Rt", 5, none)] fun values =>
      Fair true (accessIndexed ⟨word, values⟩) := by
  intro size hsize _ opc hopc _ rm hrm _ option _ hoption S _ _ rn hrn _ rt hrt _
  refine fair_allocated (a := transfer? size opc) fun t ht => ⟨⟨?_, ?_, hrm, hrn, hrt⟩, rfl⟩
  · exact moves_transfer hsize hopc ht
  · exact List.contains_iff_mem.1 (hoption _ rfl)

lemma fair_pair : ForFields [("opc", 2, some (.exclude [3])), ("idx", 2, none), ("L", 1, none),
    ("imm7", 7, none), ("Rt2", 5, none), ("Rn", 5, none), ("Rt", 5, none)] fun values =>
      Fair true (pair ⟨word, values⟩) := by
  intro opc _ _ index _ _ load _ _ imm _ _ rt2 hrt2 _ rn hrn _ rt hrt _
  refine fair_allocated (a := pairLayout? opc index (load == 1)) fun (size, signed) h =>
    ⟨⟨?_, hrt2, hrn, hrt⟩, rfl⟩
  exact pairMoves_layout h

lemma fair_address : ForFields [("op", 1, none), ("immlo", 2, none), ("immhi", 19, none), ("Rd", 5, none)]
    fun values => Fair true (address ⟨word, values⟩) := by
  intro op _ _ immlo _ _ immhi _ _ rd hrd _
  exact ⟨hrd, rfl⟩

lemma fair_addSubImm : ForFields [("sf", 1, none), ("op", 1, none), ("S", 1, none), ("sh", 1, none),
    ("imm12", 12, none), ("Rn", 5, none), ("Rd", 5, none)] fun values =>
      Fair true (addSubImm ⟨word, values⟩) := by
  intro sf _ _ op _ _ S _ _ sh _ _ imm himm _ rn hrn _ rd hrd _
  exact ⟨⟨himm, hrn, hrd⟩, rfl⟩

lemma fair_logicalImm : ForFields [("sf", 1, none), ("opc", 2, none), ("N", 1, none), ("immr", 6, none),
    ("imms", 6, none), ("Rn", 5, none), ("Rd", 5, none)] fun values =>
      Fair true (logicalImm ⟨word, values⟩) := by
  intro sf _ _ opc _ _ n _ _ immr _ _ imms _ _ rn hrn _ rd hrd _
  refine fair_require (p := Width.ofSizeBit sf == .w64 || n != 1) fun _ => ?_
  exact fair_allocated (a := Bits.decodeLogical n imms immr (.ofSizeBit sf)) fun _ _ => ⟨⟨hrn, hrd⟩, rfl⟩

lemma fair_moveWide : ForFields [("sf", 1, none), ("opc", 2, some (.exclude [1])), ("hw", 2, none),
    ("imm16", 16, none), ("Rd", 5, none)] fun values => Fair true (moveWide ⟨word, values⟩) := by
  intro sf _ _ opc _ _ hw hhw _ imm himm _ rd hrd _
  refine fair_require (p := Width.ofSizeBit sf == .w64 || hw < 2) fun hok => ⟨⟨?_, himm, hrd⟩, rfl⟩
  apply lt_bits
  · omega
  · simpa [show hw * 16 < 32 ↔ hw < 2 by omega] using hok

lemma fair_bitfield : ForFields [("sf", 1, none), ("opc", 2, some (.exclude [3])), ("N", 1, none),
    ("immr", 6, none), ("imms", 6, none), ("Rn", 5, none), ("Rd", 5, none)] fun values =>
      Fair true (bitfield ⟨word, values⟩) := by
  intro sf hsf _ opc _ _ n _ _ immr himmr _ imms himms _ rn hrn _ rd hrd _
  refine fair_require (p := n == sf) fun hn => ?_
  refine fair_allocated (a := Bits.decodeMasks n imms immr false (.ofSizeBit sf)) fun (wmask, tmask) h =>
    ⟨⟨?_, himmr, himms, hrn, hrd⟩, rfl⟩
  obtain rfl := beq_iff_eq.1 hn
  rw [sizeBit_ofSizeBit hsf]
  exact h

lemma fair_extract : ForFields [("sf", 1, none), ("N", 1, none), ("Rm", 5, none), ("imms", 6, none),
    ("Rn", 5, none), ("Rd", 5, none)] fun values => Fair true (extract ⟨word, values⟩) := by
  intro sf _ _ n _ _ rm hrm _ lsb hlsb _ rn hrn _ rd hrd _
  refine fair_require (p := n == sf && (Width.ofSizeBit sf == .w64 || lsb < 32)) fun hok =>
    ⟨⟨?_, hrm, hrn, hrd⟩, rfl⟩
  exact lt_bits hlsb (Bool.and_eq_true_iff.1 hok).2

lemma fair_logicalReg : ForFields [("sf", 1, none), ("opc", 2, none), ("shift", 2, none), ("N", 1, none),
    ("Rm", 5, none), ("imm6", 6, none), ("Rn", 5, none), ("Rd", 5, none)] fun values =>
      Fair true (logicalReg ⟨word, values⟩) := by
  intro sf _ _ opc _ _ shift hshift _ n _ _ rm hrm _ amount hamount _ rn hrn _ rd hrd _
  show Fair true ((require (Width.ofSizeBit sf == .w64 || amount < 32) >>= fun _ => .ok amount) >>= fun _ => _)
  rw [bind_assoc]
  exact fair_require fun hok => ⟨⟨hshift, lt_bits hamount hok, hrm, hrn, hrd⟩, rfl⟩

lemma fair_addSubShifted : ForFields [("sf", 1, none), ("op", 1, none), ("S", 1, none),
    ("shift", 2, some (.exclude [3])), ("Rm", 5, none), ("imm6", 6, none), ("Rn", 5, none), ("Rd", 5, none)]
    fun values => Fair true (addSubShifted ⟨word, values⟩) := by
  intro sf _ _ op _ _ S _ _ shift hshift _ rm hrm _ amount hamount _ rn hrn _ rd hrd _
  show Fair true ((require (Width.ofSizeBit sf == .w64 || amount < 32) >>= fun _ => .ok amount) >>= fun _ => _)
  rw [bind_assoc]
  exact fair_require fun hok => ⟨⟨hshift, lt_bits hamount hok, hrm, hrn, hrd⟩, rfl⟩

lemma fair_addSubExtended : ForFields [("sf", 1, none), ("op", 1, none), ("S", 1, none), ("Rm", 5, none),
    ("option", 3, none), ("imm3", 3, none), ("Rn", 5, none), ("Rd", 5, none)] fun values =>
      Fair true (addSubExtended ⟨word, values⟩) := by
  intro sf _ _ op _ _ S _ _ rm hrm _ option hoption _ amount _ _ rn hrn _ rd hrd _
  refine fair_require (p := decide (amount ≤ 4)) fun hok => ⟨⟨hoption, ?_, hrm, hrn, hrd⟩, rfl⟩
  exact of_decide_eq_true hok

lemma fair_addSubCarry : ForFields [("sf", 1, none), ("op", 1, none), ("S", 1, none), ("Rm", 5, none),
    ("Rn", 5, none), ("Rd", 5, none)] fun values => Fair true (addSubCarry ⟨word, values⟩) := by
  intro sf _ _ op _ _ S _ _ rm hrm _ rn hrn _ rd hrd _
  exact ⟨⟨hrm, hrn, hrd⟩, rfl⟩

lemma fair_condCompareReg : ForFields [("sf", 1, none), ("op", 1, none), ("Rm", 5, none), ("cond", 4, none),
    ("Rn", 5, none), ("nzcv", 4, none)] fun values => Fair true (condCompareReg ⟨word, values⟩) := by
  intro sf _ _ op _ _ rm hrm _ cond _ _ rn hrn _ nzcv hnzcv _
  exact ⟨⟨hrm, hnzcv, hrn⟩, rfl⟩

lemma fair_condCompareImm : ForFields [("sf", 1, none), ("op", 1, none), ("imm5", 5, none), ("cond", 4, none),
    ("Rn", 5, none), ("nzcv", 4, none)] fun values => Fair true (condCompareImm ⟨word, values⟩) := by
  intro sf _ _ op _ _ imm himm _ cond _ _ rn hrn _ nzcv hnzcv _
  exact ⟨⟨himm, hnzcv, hrn⟩, rfl⟩

lemma fair_condSelect : ForFields [("sf", 1, none), ("op", 1, none), ("Rm", 5, none), ("cond", 4, none),
    ("o2", 1, none), ("Rn", 5, none), ("Rd", 5, none)] fun values =>
      Fair true (condSelect ⟨word, values⟩) := by
  intro sf _ _ op _ _ rm hrm _ cond _ _ o2 _ _ rn hrn _ rd hrd _
  exact ⟨⟨hrm, hrn, hrd⟩, rfl⟩

lemma fair_twoSource : ForFields [("sf", 1, none), ("Rm", 5, none),
    ("opcode", 6, some (.only [2, 3, 8, 9, 10, 11])), ("Rn", 5, none), ("Rd", 5, none)] fun values =>
      Fair true (twoSource ⟨word, values⟩) := by
  intro sf _ _ rm hrm _ opcode _ _ rn hrn _ rd hrd _
  exact ⟨⟨hrm, hrn, hrd⟩, rfl⟩

lemma fair_threeSource : ForFields [("sf", 1, none), ("op31", 3, some (.only [0, 1, 5])), ("Rm", 5, none),
    ("o0", 1, none), ("Ra", 5, none), ("Rn", 5, none), ("Rd", 5, none)] fun values =>
      Fair true (threeSource ⟨word, values⟩) := by
  intro sf _ _ op31 _ _ rm hrm _ o0 _ _ ra hra _ rn hrn _ rd hrd _
  have hlong : ∀ product ≠ Product.plain, (Width.ofSizeBit sf == .w64 || product == .plain) = true →
      Width.ofSizeBit sf = .w64 := fun product hne hok => by
    rwa [beq_false_of_ne hne, Bool.or_false, beq_iff_eq] at hok
  match op31 with
  | 0 => exact fair_require fun _ => ⟨⟨fun hne => absurd rfl hne, hrm, hra, hrn, hrd⟩, rfl⟩
  | 1 => exact fair_require fun hok => ⟨⟨fun hne => hlong _ hne hok, hrm, hra, hrn, hrd⟩, rfl⟩
  | _ + 2 => exact fair_require fun hok => ⟨⟨fun hne => hlong _ hne hok, hrm, hra, hrn, hrd⟩, rfl⟩

/-! ### Words -/

/-- What a form with a signature reads is fair. -/
lemma fair_read {sig : Signature} {f : Form} (hsig : signatureOf f.toPattern = some sig)
    (h : ∀ word, ForFields sig fun values => Fair f.compiles (f.read ⟨word, values⟩)) {word : UInt32}
    {fields : Fields} (hp : ∃ p, f.toPattern = .ok p ∧ p.accepts word = true ∧ fields = p.extract word) :
    Fair f.compiles (f.read fields) := by
  obtain ⟨p, hp, haccepts, rfl⟩ := hp
  rw [hp] at hsig
  obtain rfl := Option.some_inj.1 hsig
  rw [Pattern.accepts, Bool.and_eq_true] at haccepts
  exact (h word).extract word haccepts.2

/-- Every form reads fairly. -/
lemma fair_all : ∀ f ∈ all, ∀ word fields,
    (∃ p, f.toPattern = .ok p ∧ p.accepts word = true ∧ fields = p.extract word) →
    Fair f.compiles (f.read fields) := by
  have hsig : ∀ {f : Form} {cs : List Char} {sig : Signature}, f.pattern = String.ofList cs →
      signatureOf (parseChars cs >>= f.constraints.foldlM fun p c => p.constrain c.1 c.2) = some sig →
      (∀ word, ForFields sig fun values => Fair f.compiles (f.read ⟨word, values⟩)) →
      ∀ word fields, (∃ p, f.toPattern = .ok p ∧ p.accepts word = true ∧ fields = p.extract word) →
        Fair f.compiles (f.read fields) := fun hpattern hsig h _ _ hp =>
    fair_read (toPattern_of_chars (P := fun p => signatureOf p = some _) hpattern hsig) h hp
  unfold all branches system loadsAndStores immediates registers
  simp only [List.cons_append, List.nil_append, List.forall_mem_cons, List.not_mem_nil, false_imp_iff,
    implies_true, and_true]
  exact ⟨hsig rfl rfl (fair_branchCond · false), hsig rfl rfl (fair_branchCond · true),
    hsig rfl rfl fair_compareBranch, hsig rfl rfl fair_testBranch, hsig rfl rfl fair_branch,
    hsig rfl rfl (fair_branchReg · false), hsig rfl rfl (fair_branchReg · true), hsig rfl rfl fair_ret,
    hsig rfl rfl fair_exceptionReturn, hsig rfl rfl (fair_exception · .svc),
    hsig rfl rfl (fair_exception · .hvc), hsig rfl rfl (fair_exception · .smc),
    hsig rfl rfl (fair_exception · .brk), hsig rfl rfl (fair_exception · .hlt), hsig rfl rfl fair_hint,
    hsig rfl rfl (fair_barrier · .clrex), hsig rfl rfl (fair_barrier · .dsb),
    hsig rfl rfl (fair_barrier · .dmb), hsig rfl rfl (fair_barrier · .isb),
    hsig rfl rfl (fair_writePstate · .spsel), hsig rfl rfl (fair_writePstate · .daifSet),
    hsig rfl rfl (fair_writePstate · .daifClr), hsig rfl rfl fair_sys, hsig rfl rfl fair_writeSysReg,
    hsig rfl rfl fair_readSysReg, hsig rfl rfl fair_literal, hsig rfl rfl fair_accessUnsigned,
    hsig rfl rfl (fair_accessSigned · .offset), hsig rfl rfl (fair_accessSigned · .postIndex),
    hsig rfl rfl (fair_accessSigned · .preIndex), hsig rfl rfl fair_accessIndexed, hsig rfl rfl fair_pair,
    hsig rfl rfl fair_address, hsig rfl rfl fair_addSubImm, hsig rfl rfl fair_logicalImm,
    hsig rfl rfl fair_moveWide, hsig rfl rfl fair_bitfield, hsig rfl rfl fair_extract,
    hsig rfl rfl fair_logicalReg, hsig rfl rfl fair_addSubShifted, hsig rfl rfl fair_addSubExtended,
    hsig rfl rfl fair_addSubCarry, hsig rfl rfl fair_condCompareReg, hsig rfl rfl fair_condCompareImm,
    hsig rfl rfl fair_condSelect, hsig rfl rfl fair_twoSource, hsig rfl rfl fair_threeSource⟩

/-- The form of a word is in the table, and its pattern accepts the word. -/
lemma decode_ok {word : UInt32} {f : Form} {fields : Fields} (h : decode word = .ok (f, fields)) :
    f ∈ all ∧ ∃ p, f.toPattern = .ok p ∧ p.accepts word = true ∧ fields = p.extract word := by
  rw [decode, table, Encoding.Table.decode_ofList, entries_eq, Encoding.Table.find] at h
  split at h
  · next p g hfind =>
    cases h
    have haccepts : p.accepts word = true :=
      List.find?_some (p := fun e : Pattern × Form => e.1.accepts word) hfind
    obtain ⟨g, hg, hpair⟩ := List.mem_map.1 (List.mem_of_find?_eq_some hfind)
    cases hpair
    obtain ⟨i, hi⟩ := List.mem_iff_getElem?.1 hg
    exact ⟨hg, _, (exists_fixedBits hi).1, haccepts, rfl⟩
  · cases h

lemma fair_decode {word : UInt32} {f : Form} {fields : Fields} (h : decode word = .ok (f, fields)) :
    Fair f.compiles (f.read fields) := by
  obtain ⟨hmem, hp⟩ := decode_ok h
  exact fair_all f hmem word fields hp

end Instr.Form

end Dynarec
