import Mathlib.Algebra.Group.Nat.Defs
import Mathlib.Data.List.Forall2
import Mathlib.Tactic.Common
import Dynarec.Instr.Text
import Dynarec.Proofs.Text.Number

/-!
# Reading lines

A line of a listing is cut into words at blanks and commas, with brackets as marks of their own, and every word is
read as what it names. `Lexes` says what an operand is read as wherever it stands: its text is followed by the end
of the line or by a character that ends a word.
-/

namespace Dynarec.Instr

open Operand

/-- What the words and the marks of a line are read as. Register 31 is the stack pointer or zero. -/
inductive Token where
  | reg (width : Width) (n : Nat) (stack : Bool)
  | imm (minus : Bool) (n : Nat)
  | word (text : String)
  | opens
  | closes
  | bang
  deriving DecidableEq

namespace Token

/-! ### Words -/

/-- The names of the registers. -/
def registers : List (String × Token) :=
  [Width.w32, .w64].flatMap fun width =>
    (regOrSp width 31, .reg width 31 true) ::
      (List.range 32).map fun n => (Operand.reg width n, .reg width n false)

/-- An immediate is read as a number with its sign. -/
def readImm (text : String) (minus : Bool) (digits : List Char) : Token :=
  match Text.readLiteral (2 ^ 64) (String.ofList digits) with
  | .ok n => .imm minus n
  | .error _ => .word text

/-- What a word is read as. -/
def ofWord (text : String) : Token :=
  match text.toList with
  | '#' :: '-' :: digits => readImm text true digits
  | '#' :: digits => readImm text false digits
  | _ => (registers.lookup text).getD (.word text)

/-! ### Lines -/

/-- A character of a word. -/
def isPlain (c : Char) : Bool := c != ' ' && c != ',' && c != '[' && c != ']' && c != '!'

/-- The tokens of a word, which is none when it has no characters. -/
def flush (word : List Char) : List Token :=
  if word = [] then [] else [ofWord (String.ofList word)]

/-- The tokens of a character that ends a word. -/
def mark : Char → List Token
  | '[' => [.opens]
  | ']' => [.closes]
  | '!' => [.bang]
  | _ => []

/-- The tokens of a text behind the characters of a word. -/
def lex (word : List Char) : List Char → List Token
  | [] => flush word
  | c :: rest => if isPlain c then lex (word ++ [c]) rest else flush word ++ mark c ++ lex [] rest

/-- The tokens of a line. -/
def ofLine (text : String) : List Token := lex [] text.toList

/-- A text that does not continue a word. -/
def Apart (rest : List Char) : Prop := ∀ c ∈ rest.head?, isPlain c = false

lemma apart_nil : Apart [] := nofun

lemma apart_cons {c : Char} {rest : List Char} (h : isPlain c = false) : Apart (c :: rest) := by
  rintro _ ⟨⟩
  exact h

lemma lex_apart {word rest : List Char} (h : Apart rest) : lex word rest = flush word ++ lex [] rest := by
  cases rest with
  | nil => exact (List.append_nil _).symm
  | cons c rest =>
    have hc : isPlain c = false := h c rfl
    simp only [lex, hc, Bool.false_eq_true, if_false, List.append_assoc]
    rfl

lemma lex_plain {word chars rest : List Char} (h : chars.all isPlain) :
    lex word (chars ++ rest) = lex (word ++ chars) rest := by
  induction chars generalizing word with
  | nil => rw [List.nil_append, List.append_nil]
  | cons c chars ih =>
    rw [List.all_cons, Bool.and_eq_true] at h
    rw [List.cons_append, lex, if_pos h.1, ih h.2, List.append_assoc, List.singleton_append]

lemma lex_marks {marks rest : List Char} (h : marks.all (!isPlain ·)) :
    lex [] (marks ++ rest) = marks.flatMap mark ++ lex [] rest := by
  induction marks with
  | nil => rfl
  | cons c marks ih =>
    rw [List.all_cons, Bool.and_eq_true, Bool.not_eq_true'] at h
    rw [List.cons_append, lex, h.1, if_neg Bool.false_ne_true, ih h.2, List.flatMap_cons, List.append_assoc,
      List.append_assoc]
    rfl

end Token

open Token

/-- A text is read as tokens wherever no word continues it. -/
def Lexes (text : String) (ts : List Token) : Prop :=
  ∀ rest, Apart rest → lex [] (text.toList ++ rest) = ts ++ lex [] rest

namespace Lexes

variable {a b m : String} {as bs ts : List Token} {n : Nat} {v : UInt64} {w : Width}
variable {ops : List String} {tss : List (List Token)}

lemma ofLine (h : Lexes a as) : Token.ofLine a = as := by
  have hrest := h [] apart_nil
  rwa [List.append_nil, show lex [] [] = [] from rfl, List.append_nil] at hrest

/-- A word is one token. -/
lemma word (h : a.toList.all isPlain) (hne : a ≠ "") : Lexes a [ofWord a] := by
  intro rest hrest
  have hlist : a.toList ≠ [] := fun h => hne (by rw [← String.toList_inj, h]; rfl)
  rw [lex_plain h, lex_apart hrest, List.nil_append, flush, if_neg hlist, String.ofList_toList]

/-- A word that names nothing is read as itself. -/
lemma name (h : a.toList.all isPlain) (hne : a ≠ "") (hword : ofWord a = .word a) : Lexes a [.word a] :=
  hword ▸ word h hne

/-- Texts with characters between them that end words. -/
lemma join (ha : Lexes a as) (sep : String) (hsep : sep.toList.all (!isPlain ·)) (hne : sep ≠ "")
    (hb : Lexes b bs) : Lexes (a ++ sep ++ b) (as ++ sep.toList.flatMap mark ++ bs) := by
  intro rest hrest
  have hapart : Apart (sep.toList ++ (b.toList ++ rest)) := by
    cases hs : sep.toList with
    | nil => exact absurd (String.toList_inj.1 hs) hne
    | cons c cs =>
      rw [hs, List.all_cons, Bool.and_eq_true, Bool.not_eq_true'] at hsep
      exact apart_cons hsep.1
  rw [String.toList_append, String.toList_append, List.append_assoc, List.append_assoc, ha _ hapart,
    lex_marks hsep, hb rest hrest, List.append_assoc, List.append_assoc]

lemma empty : Lexes "" [] := fun _ _ => rfl

lemma comma (ha : Lexes a as) (hb : Lexes b bs) : Lexes (a ++ ", " ++ b) (as ++ bs) := by
  have h := ha.join ", " rfl (by decide) hb
  rwa [show ", ".toList.flatMap mark = [] from rfl, List.append_nil] at h

lemma space (ha : Lexes a as) (hb : Lexes b bs) : Lexes (a ++ " " ++ b) (as ++ bs) := by
  have h := ha.join " " rfl (by decide) hb
  rwa [show " ".toList.flatMap mark = [] from rfl, List.append_nil] at h

lemma opened (ha : Lexes a as) : Lexes ("[" ++ a) (.opens :: as) := by
  have h := empty.join "[" rfl (by decide) ha
  rwa [String.empty_append] at h

lemma closed (ha : Lexes a as) : Lexes (a ++ "]") (as ++ [.closes]) := by
  have h := ha.join "]" rfl (by decide) empty
  rwa [String.append_empty, List.append_nil] at h

lemma banged (ha : Lexes a as) : Lexes (a ++ "]!") (as ++ [.closes, .bang]) := by
  have h := ha.join "]!" rfl (by decide) empty
  rwa [String.append_empty, List.append_nil] at h

lemma intercalate (h : List.Forall₂ Lexes ops tss) : Lexes (", ".intercalate ops) tss.flatten := by
  induction h with
  | nil => exact empty
  | @cons a as ops tss ha hops ih =>
    cases hops with
    | nil =>
      rw [String.intercalate_singleton, List.flatten_cons, List.flatten_nil, List.append_nil]
      exact ha
    | cons hb hops =>
      rw [String.intercalate_cons_cons, List.flatten_cons]
      exact ha.comma ih

/-- A mnemonic with its operands. -/
lemma line (hm : Lexes m ts) (h : List.Forall₂ Lexes ops tss) :
    Lexes (Operand.line m ops) (ts ++ tss.flatten) := by
  cases h with
  | nil =>
    rw [List.flatten_nil, List.append_nil]
    exact hm
  | cons hb hops => exact hm.space (intercalate (.cons hb hops))

/-! ### Operands -/

lemma reg (h : n < 32) : Lexes (Operand.reg w n) [.reg w n false] := by
  have hnames : ∀ w, ∀ n < 32, (Operand.reg w n).toList.all isPlain ∧ Operand.reg w n ≠ "" ∧
      ofWord (Operand.reg w n) = .reg w n false := by
    intro w
    cases w <;> decide
  obtain ⟨hplain, hne, hword⟩ := hnames w n h
  exact hword ▸ word hplain hne

lemma regOrSp (h : n < 32) : Lexes (Operand.regOrSp w n) [.reg w n (n == 31)] := by
  unfold Operand.regOrSp
  split
  · next h31 =>
    subst h31
    cases w
    · exact word (a := "wsp") rfl (by decide)
    · exact word (a := "sp") rfl (by decide)
  · next h31 =>
    rw [beq_false_of_ne h31]
    exact reg h

lemma isPlain_hex : (Text.hex n).toList.all isPlain := by
  rw [Text.hex, String.toList_ofList, List.all_cons, List.all_cons, Bool.and_eq_true, Bool.and_eq_true]
  refine ⟨rfl, rfl, List.all_eq_true.2 fun c hc => ?_⟩
  obtain ⟨d, hd, rfl⟩ := Text.mem_toDigits (by decide) hc
  have : ∀ d < 16, isPlain (Nat.digitChar d) = true := by decide
  exact this d hd

/-- An immediate is a word that begins with its sign. -/
lemma signedNumber (minus : Bool) (h : n < 2 ^ 64) :
    Lexes ((if minus then "#-" else "#") ++ number n) [.imm minus n] := by
  unfold number
  by_cases hn : n < 10
  · rw [if_pos hn]
    have hsmall : ∀ minus : Bool, ∀ n < 10,
        ((if minus then "#-" else "#") ++ toString n).toList.all isPlain ∧
        (if minus then "#-" else "#") ++ toString n ≠ "" ∧
        ofWord ((if minus then "#-" else "#") ++ toString n) = .imm minus n := by
      intro minus
      cases minus <;> decide
    obtain ⟨hplain, hne, hword⟩ := hsmall minus n hn
    exact hword ▸ word hplain hne
  · rw [if_neg hn]
    have hread := Text.readLiteral_hex h
    have hchars : ((if minus then "#-" else "#") ++ Text.hex n).toList =
        (if minus then ['#', '-'] else ['#']) ++ (Text.hex n).toList := by
      rw [String.toList_append]
      cases minus <;> rfl
    have hword : ofWord ((if minus then "#-" else "#") ++ Text.hex n) = .imm minus n := by
      rw [ofWord, hchars, Text.hex, String.toList_ofList]
      cases minus
      all_goals
        show readImm _ _ ('0' :: 'x' :: Text.hexDigits n) = _
        rw [readImm, show String.ofList ('0' :: 'x' :: Text.hexDigits n) = Text.hex n from rfl, hread]
    rw [← hword]
    apply word
    · rw [hchars, List.all_append, isPlain_hex]
      cases minus <;> rfl
    · intro hempty
      rw [hempty] at hchars
      cases minus <;> cases hchars

lemma unsigned (h : n < 2 ^ 64) : Lexes (Operand.unsigned n) [.imm false n] := signedNumber false h

end Lexes

/-- Whether the number that a word denotes is negative. -/
def sign (v : UInt64) : Bool := !decide (v < 0x8000000000000000)

/-- The absolute value of the number that a word denotes. -/
def magnitude (v : UInt64) : Nat := if sign v then (-v).toNat else v.toNat

/-- The word of a number with a sign. -/
def valueOf (minus : Bool) (n : Nat) : UInt64 := if minus then -UInt64.ofNat n else UInt64.ofNat n

@[simp] lemma valueOf_signed (v : UInt64) : valueOf (sign v) (magnitude v) = v := by
  unfold valueOf magnitude
  split
  · rw [UInt64.ofNat_toNat, UInt64.neg_neg]
  · rw [UInt64.ofNat_toNat]

namespace Lexes

variable {a b : String} {as bs : List Token} {n : Nat} {v : UInt64} {w : Width}

lemma signed (v : UInt64) : Lexes (Operand.signed v) [.imm (sign v) (magnitude v)] := by
  unfold Operand.signed magnitude
  by_cases hv : v < 0x8000000000000000
  · have hsign : sign v = false := by rw [sign, decide_eq_true hv, Bool.not_true]
    rw [if_pos hv, hsign, if_neg Bool.false_ne_true]
    exact unsigned v.toNat_lt
  · have hsign : sign v = true := by rw [sign, decide_eq_false hv, Bool.not_false]
    rw [if_neg hv, hsign, if_pos rfl]
    exact signedNumber true (-v).toNat_lt

/-- A name with an amount. -/
lemma amount (ha : Lexes a [.word a]) (h : n < 2 ^ 64) :
    Lexes (a ++ " " ++ Operand.unsigned n) [.word a, .imm false n] := ha.space (unsigned h)

/-- The tokens of a memory operand. -/
def memoryTokens (base : Nat) (offset : UInt64) : AddrMode → List Token
  | .offset =>
    if offset = 0 then [.opens, .reg .w64 base (base == 31), .closes]
    else [.opens, .reg .w64 base (base == 31), .imm (sign offset) (magnitude offset), .closes]
  | .preIndex =>
    [.opens, .reg .w64 base (base == 31), .imm (sign offset) (magnitude offset), .closes, .bang]
  | .postIndex =>
    [.opens, .reg .w64 base (base == 31), .closes, .imm (sign offset) (magnitude offset)]

lemma memory (h : n < 32) (v : UInt64) (mode : AddrMode) :
    Lexes (Operand.memory n v mode) (memoryTokens n v mode) := by
  cases mode with
  | offset =>
    unfold Operand.memory memoryTokens
    dsimp only
    split
    · exact ((regOrSp h).opened).closed
    · exact ((regOrSp h).opened.comma (signed v)).closed
  | preIndex => exact ((regOrSp h).opened.comma (signed v)).banged
  | postIndex =>
    have hjoin := (regOrSp (w := .w64) h).opened.join "], " rfl (by decide) (signed v)
    exact hjoin

end Lexes

end Dynarec.Instr
