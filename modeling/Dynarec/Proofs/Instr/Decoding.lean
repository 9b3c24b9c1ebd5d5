import Mathlib.Algebra.Group.Nat.Defs
import Dynarec.Instr.Forms
import Dynarec.Proofs.Encoding.Table
import Mathlib.Data.List.Forall2

/-!
# Which form a word has

The forms are told apart by their fixed bits, so the order of the table does not matter: a word with the
fixed bits of a form is of this form if its fields are admitted, and of none otherwise.
-/

namespace Dynarec.Instr

open Encoding (Pattern Field Fields Layout)

variable {word : UInt32} {f : Form} {p : Pattern}

/-- The number in `n` bits of a word from bit `lsb` on. -/
def bitsAt (word : UInt32) (lsb n : Nat) : Nat := word.toNat >>> lsb % 2 ^ n

lemma bitsAt_lt (word : UInt32) (lsb n : Nat) : bitsAt word lsb n < 2 ^ n :=
  Nat.mod_lt _ (Nat.two_pow_pos n)

/-! ### Reading the patterns -/

/-- The pattern of a text, character by character. -/
def parseChars (cs : List Char) : Except Encoding.PatternError Pattern := do
  let l ← (Text.words cs).foldlM (Layout.readToken (String.ofList cs)) .start
  if l.remaining = 0 then .ok ⟨l.mask, l.value, l.fields⟩ else .error (.width (String.ofList cs))

lemma parse_ofList (cs : List Char) : Pattern.parse (String.ofList cs) = parseChars cs := by
  rw [Pattern.parse, String.toList_ofList]
  rfl

namespace Form

/-- What holds of the pattern read from the characters holds of the pattern of the form. -/
lemma toPattern_of_chars {cs : List Char} {P : Except Encoding.PatternError Pattern → Prop}
    (h : f.pattern = String.ofList cs)
    (hp : P (parseChars cs >>= f.constraints.foldlM fun p (name, c) => p.constrain name c)) :
    P f.toPattern := by
  rwa [toPattern, h, parse_ofList]

/-- The fixed bits of a pattern that can be read, as a mask and the values of the bits. -/
def readBits (p : Except Encoding.PatternError Pattern) : Option (UInt32 × UInt32) :=
  p.toOption.map fun p => (p.mask, p.value)

/-- The fixed bits of the forms in their order, each as a mask and the values of the bits. -/
def fixedBits : List (UInt32 × UInt32) :=
  [ (0xff000010, 0x54000000), (0xff000010, 0x54000010), (0x7e000000, 0x34000000),
    (0x7e000000, 0x36000000), (0x7c000000, 0x14000000), (0xfffffc1f, 0xd61f0000),
    (0xfffffc1f, 0xd63f0000), (0xfffffc1f, 0xd65f0000), (0xffffffff, 0xd69f03e0),
    (0xffe0001f, 0xd4000001), (0xffe0001f, 0xd4000002), (0xffe0001f, 0xd4000003),
    (0xffe0001f, 0xd4200000), (0xffe0001f, 0xd4400000), (0xfffff01f, 0xd503201f),
    (0xfffff0ff, 0xd503305f), (0xfffff0ff, 0xd503309f), (0xfffff0ff, 0xd50330bf),
    (0xfffff0ff, 0xd50330df), (0xfffff0ff, 0xd50040bf), (0xfffff0ff, 0xd50340df),
    (0xfffff0ff, 0xd50340ff), (0xfff80000, 0xd5080000), (0xfff00000, 0xd5100000),
    (0xfff00000, 0xd5300000), (0x3f000000, 0x18000000), (0x3f000000, 0x39000000),
    (0x3f200c00, 0x38000000), (0x3f200c00, 0x38000400), (0x3f200c00, 0x38000c00),
    (0x3f200c00, 0x38200800), (0x3e000000, 0x28000000), (0x1f000000, 0x10000000),
    (0x1f800000, 0x11000000), (0x1f800000, 0x12000000), (0x1f800000, 0x12800000),
    (0x1f800000, 0x13000000), (0x7fa00000, 0x13800000), (0x1f000000, 0x0a000000),
    (0x1f200000, 0x0b000000), (0x1fe00000, 0x0b200000), (0x1fe0fc00, 0x1a000000),
    (0x3fe00c10, 0x3a400000), (0x3fe00c10, 0x3a400800), (0x3fe00800, 0x1a800000),
    (0x7fe00000, 0x1ac00000), (0x7f000000, 0x1b000000) ]

/-- The pattern of every form can be read, and these are its fixed bits. -/
lemma fixedBits_all :
    List.Forall₂ (fun f bits => readBits f.toPattern = some bits) all fixedBits := by
  unfold all branches system loadsAndStores immediates registers fixedBits
  simp only [List.cons_append, List.nil_append]
  repeat' first
    | exact .nil
    | refine .cons (toPattern_of_chars (P := fun p => readBits p = some _) rfl rfl) ?_

/-- No word has the fixed bits of two forms. -/
lemma fixedBits_pairwise : fixedBits.Pairwise fun a b => a.2 &&& b.1 ≠ b.2 &&& a.1 := by
  decide +kernel

/-- The pattern of a form. -/
def readPattern (f : Form) : Pattern := f.toPattern.toOption.getD ⟨0, 0, []⟩

lemma exists_fixedBits {i : Nat} (hf : all[i]? = some f) :
    f.toPattern = .ok f.readPattern ∧
      fixedBits[i]? = some (f.readPattern.mask, f.readPattern.value) := by
  obtain ⟨hlt, rfl⟩ := List.getElem?_eq_some_iff.1 hf
  have hlt' : i < fixedBits.length := fixedBits_all.length_eq ▸ hlt
  have hbits : readBits all[i].toPattern = some fixedBits[i] := fixedBits_all.get hlt hlt'
  rw [List.getElem?_eq_getElem hlt', ← hbits, readPattern]
  cases h : all[i].toPattern with
  | error e =>
    rw [h] at hbits
    cases hbits
  | ok p => exact ⟨rfl, rfl⟩

/-! ### Decoding -/

/-- Every form is in the table, with its pattern. -/
lemma entries_eq : (all.filterMap fun f => f.toPattern.toOption.map (·, f)) =
    all.map fun f => (f.readPattern, f) := by
  rw [← List.filterMap_eq_map]
  apply List.filterMap_congr
  intro f hf
  obtain ⟨i, hi⟩ := List.mem_iff_getElem?.1 hf
  rw [(exists_fixedBits hi).1]
  rfl

/-- A word with the fixed bits of a form is of this form if its fields are admitted, and of none
otherwise. -/
lemma decode_eq {i : Nat} (hf : all[i]? = some f) (hp : f.toPattern = .ok p)
    (hword : word &&& p.mask = p.value) : decode word =
      if p.fields.all (·.admits word) then .ok (f, p.extract word)
      else .error (.invalidEncoding word) := by
  obtain ⟨hread, hbits⟩ := exists_fixedBits hf
  obtain rfl : p = f.readPattern := Except.ok.inj (hp.symm.trans hread)
  have hentry : ∀ j, (all.map fun f : Form => (f.readPattern, f))[j]? =
      all[j]?.map fun f : Form => (f.readPattern, f) := fun j => List.getElem?_map
  rw [decode, table, Encoding.Table.decode_ofList, entries_eq]
  apply Encoding.Table.find_of_conflicts (i := i) _ _ hword
  · rw [hentry, hf]
    rfl
  · intro j q hj hq
    rw [hentry] at hq
    obtain ⟨g, hg, rfl⟩ := Option.map_eq_some_iff.1 hq
    have hgbits := (exists_fixedBits hg).2
    have hpair := List.pairwise_iff_getElem.1 fixedBits_pairwise
    obtain ⟨hi', hib⟩ := List.getElem?_eq_some_iff.1 hbits
    obtain ⟨hj', hjb⟩ := List.getElem?_eq_some_iff.1 hgbits
    rcases Nat.lt_or_gt_of_ne hj with hlt | hlt
    · have hne := hpair j i hj' hi' hlt
      rw [hib, hjb] at hne
      exact hne.symm
    · have hne := hpair i j hi' hj' hlt
      rwa [hib, hjb] at hne

end Form

end Dynarec.Instr
