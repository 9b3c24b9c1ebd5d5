import Dynarec.Proofs.Instr.Encodable
import Dynarec.Proofs.Instr.Tokens

/-!
# Reading listings back

An assembler for the lines of a listing. Every mnemonic has a reader, which reads its operands as an instruction;
the reader of an alias puts in the operand that the alias leaves out.
-/

namespace Dynarec.Instr.Assembler

open Operand

/-- How the operands of a mnemonic are read. -/
abbrev Reader := List Token → Option Instr

/-! ### Names -/

/-- The conditions. -/
def conds : List Cpu.Cond :=
  [.eq, .ne, .cs, .cc, .mi, .pl, .vs, .vc, .hi, .ls, .ge, .lt, .gt, .le, .al, .nv]

/-- The condition of a name. -/
def condOf? (name : String) : Option Cpu.Cond := conds.find? (·.name == name)

/-- The shift of a name. -/
def shiftOf? (name : String) : Option Nat := (List.range 4).find? (shiftName · == name)

/-- The extension of a name. -/
def extendOf? (name : String) : Option Nat := (List.range 8).find? (extendName · == name)

/-- The processor field of a name. -/
def pstateOf? (name : String) : Option PstateField :=
  [PstateField.spsel, .daifSet, .daifClr].find? (·.name == name)

/-- The selector of the system register of a name; one that is not kept is like any other. -/
def selectorOf (name : String) : Nat :=
  ((Cpu.SysReg.all.find? (·.name == name)).map (·.selector)).getD 0

/-! ### Branches and system instructions -/

def branchCond (cond : Cpu.Cond) : Reader
  | [.imm minus n] => some (.branchCond false cond (valueOf minus n))
  | _ => none

def compareBranch (nonzero : Bool) : Reader
  | [.reg w rt _, .imm minus n] => some (.compareBranch w nonzero rt (valueOf minus n))
  | _ => none

def testBranch (nonzero : Bool) : Reader
  | [.reg _ rt _, .imm _ bit, .imm minus n] => some (.testBranch nonzero bit rt (valueOf minus n))
  | _ => none

def branch (link : Bool) : Reader
  | [.imm minus n] => some (.branch link (valueOf minus n))
  | _ => none

def branchReg (link : Bool) : Reader
  | [.reg _ rn _] => some (.branchReg link rn)
  | _ => none

def ret : Reader
  | [] => some (.ret 30)
  | [.reg _ rn _] => some (.ret rn)
  | _ => none

def exception (kind : ExceptionKind) : Reader
  | [.imm _ n] => some (.exception kind n)
  | _ => none

/-- Hints, barriers and system operations do nothing, whatever their operands are. -/
def nothing : Reader := fun _ => some (.hint 0)

def msr : Reader
  | [.word name, .imm _ n] => (pstateOf? name).map (.writePstate · n)
  | [.word name, .reg _ rt _] => some (.writeSysReg (selectorOf name) rt)
  | _ => none

def mrs : Reader
  | [.reg _ rt _, .word name] => some (.readSysReg (selectorOf name) rt)
  | _ => none

/-! ### Loads and stores -/

/-- The base, the offset and the mode of a memory operand. -/
def memory? : List Token → Option (Nat × UInt64 × AddrMode)
  | [.opens, .reg _ rn _, .closes] => some (rn, 0, .offset)
  | [.opens, .reg _ rn _, .imm minus n, .closes] => some (rn, valueOf minus n, .offset)
  | [.opens, .reg _ rn _, .imm minus n, .closes, .bang] => some (rn, valueOf minus n, .preIndex)
  | [.opens, .reg _ rn _, .closes, .imm minus n] => some (rn, valueOf minus n, .postIndex)
  | _ => none

/-- The rest of a memory instruction behind its register. -/
def transfer (t : Transfer) (size : AccessSize) (rt : Nat) : Reader
  | [.imm minus n] => some (.literal t size rt (valueOf minus n))
  | [.opens, .reg _ rn _, .reg _ rm _, .closes] => some (.accessIndexed t size 3 false rm rn rt)
  | [.opens, .reg _ rn _, .reg _ rm _, .word name, .closes] =>
    (extendOf? name).map (.accessIndexed t size · false rm rn rt)
  | [.opens, .reg _ rn _, .reg _ rm _, .word name, .imm _ _, .closes] =>
    some (.accessIndexed t size ((extendOf? name).getD 3) true rm rn rt)
  | tokens => (memory? tokens).map fun (rn, offset, mode) => .access t size false mode offset rn rt

/-- A memory instruction whose register may tell what it does. -/
def access (kind : Width → Transfer × AccessSize) : Reader
  | .reg w rt _ :: rest => transfer (kind w).1 (kind w).2 rt rest
  | _ => none

/-- A prefetch does nothing with its operation. -/
def prefetch : Reader
  | _ :: rest => transfer .prefetch .double 0 rest
  | [] => none

/-- The size that a register tells. -/
def registerSize : Width → AccessSize
  | .w32 => .word
  | .w64 => .double

def pair (load signed : Bool) : Reader
  | .reg w rt _ :: .reg _ rt2 _ :: rest => (memory? rest).map fun (rn, offset, mode) =>
    .pair load false (if signed then .word else registerSize w) signed mode offset rt2 rn rt
  | _ => none

/-! ### Sums and bitwise operations -/

def address (page : Bool) : Reader
  | [.reg _ rd _, .imm minus n] => some (.address page (valueOf minus n) rd)
  | _ => none

/-- The extension that keeps a register of a width whole. -/
def natural : Width → Nat
  | .w32 => 2
  | .w64 => 3

/-- The stack pointer is an operand of extended forms only, where the natural extension is written as a left
shift or not at all. -/
def addSub (sub setFlags : Bool) : Reader
  | [.reg w rd _, .reg _ rn _, .imm _ n] => some (.addSubImm w sub setFlags false n rn rd)
  | [.reg w rd _, .reg _ rn _, .imm _ n, .word _, .imm _ _] =>
    some (.addSubImm w sub setFlags true n rn rd)
  | [.reg w rd stack, .reg _ rn stack', .reg _ rm _] =>
    if stack || stack' then some (.addSubExtended w sub setFlags (natural w) 0 rm rn rd)
    else some (.addSubShifted w sub setFlags 0 0 rm rn rd)
  | [.reg w rd _, .reg _ rn _, .reg _ rm _, .word name] =>
    (extendOf? name).map (.addSubExtended w sub setFlags · 0 rm rn rd)
  | [.reg w rd stack, .reg _ rn stack', .reg _ rm _, .word name, .imm _ n] =>
    match extendOf? name with
    | some option => some (.addSubExtended w sub setFlags option n rm rn rd)
    | none =>
      if stack || stack' then some (.addSubExtended w sub setFlags (natural w) n rm rn rd)
      else (shiftOf? name).map (.addSubShifted w sub setFlags · n rm rn rd)
  | _ => none

/-- A comparison has no destination. -/
def compare (sub : Bool) : Reader
  | .reg w rn stack :: rest => addSub sub true (.reg w 31 false :: .reg w rn stack :: rest)
  | _ => none

/-- A negation has no minuend. -/
def negate (setFlags : Bool) : Reader
  | .reg w rd stack :: rest => addSub true setFlags (.reg w rd stack :: .reg w 31 false :: rest)
  | _ => none

def addSubCarry (sub setFlags : Bool) : Reader
  | [.reg w rd _, .reg _ rm _] => some (.addSubCarry w sub setFlags rm 31 rd)
  | [.reg w rd _, .reg _ rn _, .reg _ rm _] => some (.addSubCarry w sub setFlags rm rn rd)
  | _ => none

/-- A logical immediate is read as its value. -/
def logic (op : LogicOp) (inverted : Bool) : Reader
  | [.reg w rd _, .reg _ rn _, .imm _ n] => some (.logicalImm w op ⟨0, 0, 0, UInt64.ofNat n⟩ rn rd)
  | [.reg w rd _, .reg _ rn _, .reg _ rm _] => some (.logicalReg w op inverted 0 0 rm rn rd)
  | [.reg w rd _, .reg _ rn _, .reg _ rm _, .word name, .imm _ n] =>
    (shiftOf? name).map (.logicalReg w op inverted · n rm rn rd)
  | _ => none

/-- A test has no destination. -/
def test : Reader
  | .reg w rn stack :: rest => logic .ands false (.reg w 31 false :: .reg w rn stack :: rest)
  | _ => none

/-- A complement has one operand. -/
def complement : Reader
  | .reg w rd stack :: rest => logic .orr true (.reg w rd stack :: .reg w 31 false :: rest)
  | _ => none

/-- A move of a constant into a register. -/
def constant (w : Width) (value : UInt64) (rd : Nat) : Instr :=
  .moveWide w .movz 0 (value &&& w.mask).toNat rd

/-- A move is a sum with zero where it has the stack pointer for a register, and the combination of a logical
immediate with zero where it sets the stack pointer. -/
def move : Reader
  | [.reg w rd stack, .reg _ rn stack'] =>
    if stack || stack' then some (.addSubImm w false false false 0 rn rd)
    else some (.logicalReg w .orr false 0 0 rn 31 rd)
  | [.reg w rd stack, .imm minus n] =>
    if stack then some (.logicalImm w .orr ⟨0, 0, 0, valueOf minus n⟩ 31 rd)
    else some (constant w (valueOf minus n) rd)
  | _ => none

def moveWide (op : MoveWideOp) : Reader
  | [.reg w rd _, .imm _ n] => some (.moveWide w op 0 n rd)
  | [.reg w rd _, .imm _ n, .word _, .imm _ shift] => some (.moveWide w op shift n rd)
  | _ => none

/-! ### Bitfields and shifts -/

/-- A bitfield move, whose masks are those of its positions. -/
def bitfield (w : Width) (op : BitfieldOp) (immr imms rn rd : Nat) : Option Instr :=
  (Bits.decodeMasks (sizeBit w) imms immr false w).map fun (wmask, tmask) =>
    .bitfield w op immr imms wmask tmask rn rd

/-- A bitfield move with its positions. -/
def positions (op : BitfieldOp) : Reader
  | [.reg w rd _, .reg _ rn _, .imm _ immr, .imm _ imms] => bitfield w op immr imms rn rd
  | _ => none

/-- A bitfield is inserted at a bit, with a number of bits. -/
def insert (op : BitfieldOp) : Reader
  | [.reg w rd _, .reg _ rn _, .imm _ lsb, .imm _ n] => bitfield w op (w.bits - lsb) (n - 1) rn rd
  | _ => none

/-- A bitfield is cleared by inserting zero. -/
def clear : Reader
  | .reg w rd stack :: rest => insert .bfm (.reg w rd stack :: .reg w 31 false :: rest)
  | _ => none

/-- A bitfield is extracted from a bit on, with a number of bits. -/
def extract (op : BitfieldOp) : Reader
  | [.reg w rd _, .reg _ rn _, .imm _ lsb, .imm _ n] => bitfield w op lsb (lsb + n - 1) rn rd
  | _ => none

/-- The low bits of a register are extended. -/
def extend (op : BitfieldOp) (imms : Nat) : Reader
  | [.reg w rd _, .reg _ rn _] => bitfield w op 0 imms rn rd
  | _ => none

/-- A shift by a register, or by an amount. -/
def shift (op : TwoSourceOp) (byAmount : Width → Nat → Nat → Nat → Option Instr) : Reader
  | [.reg w rd _, .reg _ rn _, .reg _ rm _] => some (.twoSource w op rm rn rd)
  | [.reg w rd _, .reg _ rn _, .imm _ n] => byAmount w n rn rd
  | _ => none

def extractPair : Reader
  | [.reg w rd _, .reg _ rn _, .reg _ rm _, .imm _ lsb] => some (.extract w lsb rm rn rd)
  | _ => none

/-! ### Other operations on registers -/

def condCompare (sub : Bool) : Reader
  | [.reg w rn _, .imm _ n, .imm _ nzcv, .word name] =>
    (condOf? name).map (.condCompare w sub (.imm n) · nzcv rn)
  | [.reg w rn _, .reg _ rm _, .imm _ nzcv, .word name] =>
    (condOf? name).map (.condCompare w sub (.reg rm) · nzcv rn)
  | _ => none

/-- A conditional select. With fewer operands it chooses between a register and a variant of itself, on the
opposite condition. -/
def condSelect (invert increment : Bool) : Reader
  | [.reg w rd _, .word name] =>
    (condOf? name).map (.condSelect w invert increment ·.invert 31 31 rd)
  | [.reg w rd _, .reg _ rn _, .word name] =>
    (condOf? name).map (.condSelect w invert increment ·.invert rn rn rd)
  | [.reg w rd _, .reg _ rn _, .reg _ rm _, .word name] =>
    (condOf? name).map (.condSelect w invert increment · rm rn rd)
  | _ => none

def twoSource (op : TwoSourceOp) : Reader := shift op fun _ _ _ _ => none

def threeSource (product : Product) (sub : Bool) : Reader
  | [.reg w rd _, .reg _ rn _, .reg _ rm _] => some (.threeSource w product sub rm 31 rn rd)
  | [.reg w rd _, .reg _ rn _, .reg _ rm _, .reg _ ra _] =>
    some (.threeSource w product sub rm ra rn rd)
  | _ => none

/-! ### Lines -/

/-- The readers of the mnemonics. -/
def readers : List (String × Reader) :=
  conds.map (fun cond => ("b." ++ cond.name, branchCond cond)) ++
  conds.map (fun cond => ("bc." ++ cond.name, branchCond cond)) ++
  [ ("cbz", compareBranch false), ("cbnz", compareBranch true), ("tbz", testBranch false),
    ("tbnz", testBranch true), ("b", branch false), ("bl", branch true), ("br", branchReg false),
    ("blr", branchReg true), ("ret", ret), ("eret", fun _ => some .exceptionReturn),
    ("svc", exception .svc), ("hvc", exception .hvc), ("smc", exception .smc),
    ("brk", exception .brk), ("hlt", exception .hlt), ("msr", msr), ("mrs", mrs) ] ++
  ["nop", "yield", "wfe", "wfi", "sev", "sevl", "hint", "clrex", "ssbb", "pssbb", "dsb", "dmb", "isb",
    "sys"].map (fun name => (name, nothing)) ++
  [ ("ldr", access fun w => (.load w false, registerSize w)),
    ("ldur", access fun w => (.load w false, registerSize w)),
    ("ldrb", access fun w => (.load w false, .byte)), ("ldurb", access fun w => (.load w false, .byte)),
    ("ldrh", access fun w => (.load w false, .half)), ("ldurh", access fun w => (.load w false, .half)),
    ("ldrsb", access fun w => (.load w true, .byte)), ("ldursb", access fun w => (.load w true, .byte)),
    ("ldrsh", access fun w => (.load w true, .half)), ("ldursh", access fun w => (.load w true, .half)),
    ("ldrsw", access fun w => (.load w true, .word)), ("ldursw", access fun w => (.load w true, .word)),
    ("str", access fun w => (.store, registerSize w)), ("stur", access fun w => (.store, registerSize w)),
    ("strb", access fun _ => (.store, .byte)), ("sturb", access fun _ => (.store, .byte)),
    ("strh", access fun _ => (.store, .half)), ("sturh", access fun _ => (.store, .half)),
    ("prfm", prefetch), ("prfum", prefetch), ("stnp", pair false false), ("ldnp", pair true false),
    ("stp", pair false false), ("ldpsw", pair true true), ("ldp", pair true false),
    ("adr", address false), ("adrp", address true), ("add", addSub false false),
    ("adds", addSub false true), ("sub", addSub true false), ("subs", addSub true true),
    ("cmn", compare false), ("cmp", compare true), ("neg", negate false), ("negs", negate true),
    ("adc", addSubCarry false false), ("adcs", addSubCarry false true), ("sbc", addSubCarry true false),
    ("sbcs", addSubCarry true true), ("ngc", addSubCarry true false), ("ngcs", addSubCarry true true),
    ("and", logic .and false), ("bic", logic .and true), ("orr", logic .orr false),
    ("orn", logic .orr true), ("eor", logic .eor false), ("eon", logic .eor true),
    ("ands", logic .ands false), ("bics", logic .ands true), ("tst", test), ("mvn", complement),
    ("mov", move), ("movz", moveWide .movz), ("movn", moveWide .movn), ("movk", moveWide .movk),
    ("sbfm", positions .sbfm), ("ubfm", positions .ubfm), ("sbfiz", insert .sbfm), ("bfi", insert .bfm),
    ("ubfiz", insert .ubfm), ("bfc", clear), ("sbfx", extract .sbfm), ("bfxil", extract .bfm),
    ("ubfx", extract .ubfm), ("sxtb", extend .sbfm 7), ("sxth", extend .sbfm 15),
    ("sxtw", extend .sbfm 31), ("uxtb", extend .ubfm 7), ("uxth", extend .ubfm 15),
    ("lsl", shift .lsl fun w n => bitfield w .ubfm (w.bits - n) (w.bits - 1 - n)),
    ("lsr", shift .lsr fun w n => bitfield w .ubfm n (w.bits - 1)),
    ("asr", shift .asr fun w n => bitfield w .sbfm n (w.bits - 1)),
    ("ror", shift .ror fun w n rn rd => some (.extract w n rn rn rd)), ("extr", extractPair),
    ("ccmn", condCompare false), ("ccmp", condCompare true), ("csel", condSelect false false),
    ("csinc", condSelect false true), ("csinv", condSelect true false), ("csneg", condSelect true true),
    ("cset", condSelect false true), ("csetm", condSelect true false), ("cinc", condSelect false true),
    ("cinv", condSelect true false), ("cneg", condSelect true true), ("udiv", twoSource .udiv),
    ("sdiv", twoSource .sdiv), ("madd", threeSource .plain false), ("mul", threeSource .plain false),
    ("msub", threeSource .plain true), ("mneg", threeSource .plain true),
    ("smaddl", threeSource (.long true) false), ("smull", threeSource (.long true) false),
    ("smsubl", threeSource (.long true) true), ("smnegl", threeSource (.long true) true),
    ("umaddl", threeSource (.long false) false), ("umull", threeSource (.long false) false),
    ("umsubl", threeSource (.long false) true), ("umnegl", threeSource (.long false) true) ]

/-- The instruction that a line is read as. -/
def assemble (text : String) : Option Instr :=
  match Token.ofLine text with
  | .word mnemonic :: operands => (readers.lookup mnemonic).bind (· operands)
  | _ => none

example : assemble "add x0, sp, x1, lsl #2" = some (.addSubExtended .w64 false false 3 2 1 31 0) := by decide

example : assemble "ldr w3, [x1, #-8]!" = some (.access (.load .w32 false) .word false .preIndex (-8) 1 3) := by
  decide

lemma readers_word : ∀ row ∈ readers,
    row.1.toList.all Token.isPlain ∧ row.1 ≠ "" ∧ Token.ofWord row.1 = .word row.1 := by
  decide +kernel

/-- A line is read by the reader of its mnemonic. -/
lemma assemble_line {m : String} {ops : List String} {tss : List (List Token)} {r : Reader}
    (hr : readers.lookup m = some r) (h : List.Forall₂ Lexes ops tss) :
    assemble (line m ops) = r tss.flatten := by
  have hmem : (m, r) ∈ readers := by
    obtain ⟨_, _, happend, -⟩ := List.lookup_eq_some_iff.1 hr
    exact happend ▸ List.mem_append_cons_self
  obtain ⟨hplain, hne, hword⟩ := readers_word (m, r) hmem
  have hlex := (Lexes.name hplain hne hword).line h
  rw [assemble, hlex.ofLine]
  show (readers.lookup m).bind (· tss.flatten) = r tss.flatten
  rw [hr]
  rfl

end Dynarec.Instr.Assembler
