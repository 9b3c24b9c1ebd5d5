import Mathlib.Algebra.Group.Nat.Defs
import Mathlib.Data.List.Forall2
import Mathlib.Data.List.Nodup
import Mathlib.Data.List.TakeDrop
import Mathlib.Data.List.TakeWhile
import Dynarec.Encoding.Pattern
import Dynarec.Proofs.Text.Decimal
import Dynarec.Proofs.Text.Words

/-!
# The language of patterns

A pattern is written as tokens with blanks between them: runs of fixed bits, and fields with a name and a
width. The reader takes a text exactly if it is written like this, its tokens describe 32 bits together, and
no name occurs twice.
-/

namespace Dynarec.Encoding

/-- What a word of a pattern stands for: a run of fixed bits, or a named field of some width. -/
inductive Token where
  | bits (values : List Bool)
  | field (name : String) (width : Nat)

namespace Token

/-- How many bits of a word a token describes. -/
def width : Token → Nat
  | bits values => values.length
  | field _ width => width

/-- The name that a token declares. -/
def names : Token → List String
  | bits _ => []
  | field name _ => [name]

/-- How a fixed bit is written. -/
def bitChar (b : Bool) : Char := if b then '1' else '0'

/-- How a token is written. A name may hold any characters other than blanks and the colon that ends it. -/
inductive Spells : Token → List Char → Prop where
  | bits {values : List Bool} : Spells (.bits values) (values.map bitChar)
  | field {name digits : List Char} {width : Nat} : name ≠ [] → ':' ∉ name →
      Text.Numeral digits width → width < 2 ^ 32 → 1 ≤ width →
      Spells (.field (String.ofList name) width) (name ++ ':' :: digits)

lemma span_colon {name digits : List Char} (hname : ':' ∉ name) :
    (name ++ ':' :: digits).span (· != ':') = (name, ':' :: digits) := by
  have hpos : ∀ c ∈ name, (c != ':') = true := by
    intro c hc
    exact bne_iff_ne.2 (ne_of_mem_of_not_mem hc hname)
  rw [List.span_eq_takeWhile_dropWhile, List.takeWhile_append_of_pos hpos,
    List.dropWhile_append_of_pos hpos]
  simp

lemma span_no_colon {w : List Char} (hw : ':' ∉ w) : w.span (· != ':') = (w, []) := by
  have hpos : ∀ c ∈ w, (c != ':') = true := by
    intro c hc
    exact bne_iff_ne.2 (ne_of_mem_of_not_mem hc hw)
  rw [List.span_eq_takeWhile_dropWhile, List.takeWhile_eq_self_iff.2 hpos,
    List.dropWhile_eq_nil_iff.2 hpos]

/-- What is written with a colon is a field, whose name ends at the first one. -/
lemma Spells.field_inv {t : Token} {name digits : List Char} (h : t.Spells (name ++ ':' :: digits))
    (hname : ':' ∉ name) : ∃ width, t = .field (String.ofList name) width ∧ name ≠ [] ∧
      Text.Numeral digits width ∧ width < 2 ^ 32 ∧ 1 ≤ width := by
  generalize htext : name ++ ':' :: digits = text at h
  cases h with
  | @bits values =>
    have hcolon : ':' ∈ values.map bitChar := by
      rw [← htext]
      exact List.mem_append_right _ List.mem_cons_self
    obtain ⟨b, _, hb⟩ := List.mem_map.1 hcolon
    cases b <;> cases hb
  | @field name' digits' width hne hname' hnumeral hlt hpos =>
    have hspan : (name ++ ':' :: digits).span (· != ':') = (name, ':' :: digits) := span_colon hname
    rw [htext, span_colon hname'] at hspan
    cases hspan
    exact ⟨width, rfl, hne, hnumeral, hlt, hpos⟩

lemma Spells.bits_inv {t : Token} {w : List Char} (h : t.Spells w) (hw : ':' ∉ w) :
    ∃ values, t = .bits values ∧ w = values.map bitChar := by
  cases h with
  | @bits values => exact ⟨values, rfl, rfl⟩
  | field => exact absurd (List.mem_append_right _ List.mem_cons_self) hw

end Token

/-- A text consists of tokens, in this order, and of blanks. No word of it is empty, so a run of fixed bits
has at least one. -/
def Written (ts : List Token) (text : List Char) : Prop :=
  ∃ ws, Text.Separated ws text ∧ List.Forall₂ Token.Spells ts ws

/-- How many bits tokens describe together. -/
def totalWidth : List Token → Nat
  | [] => 0
  | t :: ts => t.width + totalWidth ts

/-- The names that tokens declare, in their order. -/
def declared (ts : List Token) : List String := ts.flatMap Token.names

namespace Layout

open Token (bitChar span_colon span_no_colon)

variable {l l' : Layout} {spec : String} {w : List Char} {ts : List Token}

/-- Describe the next bits as a token says. -/
def add (l : Layout) : Token → Layout
  | .bits values => values.foldl addBit l
  | .field name width => l.addField name width

/-- The names of the fields so far. -/
def names (l : Layout) : List String := l.fields.map Field.name

lemma foldl_addBit (values : List Bool) (l : Layout) :
    (values.foldl addBit l).remaining = l.remaining - values.length ∧
      (values.foldl addBit l).fields = l.fields := by
  induction values generalizing l with
  | nil => exact ⟨rfl, rfl⟩
  | cons b values ih =>
    obtain ⟨hremaining, hfields⟩ := ih (l.addBit b)
    refine ⟨hremaining.trans ?_, hfields⟩
    show l.remaining - 1 - values.length = l.remaining - (values.length + 1)
    omega

lemma add_remaining (l : Layout) (t : Token) : (l.add t).remaining = l.remaining - t.width := by
  cases t with
  | bits values => exact (foldl_addBit values l).1
  | field name width => rfl

lemma add_names (l : Layout) (t : Token) : (l.add t).names = l.names ++ t.names := by
  cases t with
  | bits values =>
    rw [add, names, (foldl_addBit values l).2]
    exact (List.append_nil _).symm
  | field name width => exact List.map_append

/-! ### One token -/

/-- Whether the bits that are left are enough for a token, and its name is new. -/
structure Takes (l : Layout) (t : Token) : Prop where
  enough : t.width ≤ l.remaining
  fresh : l.names.Disjoint t.names

lemma readBit_ok {token : String} {c : Char} : readBit spec token l c = .ok l' ↔
    ∃ b, c = bitChar b ∧ 1 ≤ l.remaining ∧ l' = l.addBit b := by
  constructor
  · intro h
    unfold readBit at h
    -- whether a bit is left is asked last, but stands in every branch
    split at h
    · dsimp only at h
      split at h <;> cases h
    · next hl =>
      have hl : 1 ≤ l.remaining := Nat.one_le_iff_ne_zero.2 hl
      dsimp only at h
      split at h
      · exact ⟨false, rfl, hl, (Except.ok.inj h).symm⟩
      · exact ⟨true, rfl, hl, (Except.ok.inj h).symm⟩
      · cases h
  · intro ⟨b, hc, hl, hl'⟩
    rw [hc, hl']
    cases b with
    | false => exact if_neg (Nat.ne_of_gt hl)
    | true => exact if_neg (Nat.ne_of_gt hl)

lemma foldlM_readBit_ok {token : String} : w.foldlM (readBit spec token) l = .ok l' ↔
    ∃ values : List Bool, w = values.map bitChar ∧ values.length ≤ l.remaining ∧ l' = values.foldl addBit l := by
  induction w generalizing l with
  | nil =>
    constructor
    · intro h
      cases h
      exact ⟨[], rfl, Nat.zero_le _, rfl⟩
    · intro ⟨values, hw, _, hl'⟩
      obtain rfl := List.map_eq_nil_iff.1 hw.symm
      rw [hl']
      rfl
  | cons c w ih =>
    rw [List.foldlM_cons, except_bind_eq_ok]
    simp only [readBit_ok, ih]
    constructor
    · intro ⟨_, ⟨b, hc, hl, rfl⟩, values, hw, hlen, hl'⟩
      refine ⟨b :: values, by rw [hc, hw, List.map_cons], ?_, hl'⟩
      exact Nat.add_le_of_le_sub hl hlen
    · intro ⟨values, hw, hlen, hl'⟩
      obtain ⟨b, values, rfl, hc, hw⟩ := List.map_eq_cons_iff.1 hw.symm
      have hl : 1 ≤ l.remaining := Nat.le_trans (Nat.le_add_left 1 _) hlen
      exact ⟨_, ⟨b, hc.symm, hl, rfl⟩, values, hw.symm, Nat.le_sub_of_add_le hlen, hl'⟩

lemma any_name {name : String} : (l.fields.any fun f => f.name == name) = true ↔ name ∈ l.names := by
  simp only [List.any_eq_true, beq_iff_eq, names, List.mem_map]

lemma readField_ok {token : String} {name digits : List Char} :
    readField spec token l name digits = .ok l' ↔
      ∃ width, name ≠ [] ∧ Text.Numeral digits width ∧ width < 2 ^ 32 ∧ 1 ≤ width ∧
        l.Takes (.field (String.ofList name) width) ∧ l' = l.addField (String.ofList name) width := by
  constructor
  · intro h
    unfold readField at h
    split at h
    · cases h
    · next width hwidth =>
      obtain ⟨hnumeral, hlt⟩ := (Text.readNumber_ten (by decide)).1 hwidth
      dsimp only at h
      split at h
      · cases h
      · next hgood =>
        obtain ⟨hname, hpos⟩ := not_or.1 hgood
        split at h
        · cases h
        · next hroom =>
          split at h
          · cases h
          · next hfresh =>
            cases h
            rw [String.isEmpty_iff, String.ofList_eq_empty_iff] at hname
            rw [any_name] at hfresh
            exact ⟨width, hname, hnumeral, hlt, Nat.one_le_iff_ne_zero.2 hpos,
              ⟨Nat.not_lt.1 hroom, List.disjoint_singleton.2 hfresh⟩, rfl⟩
  · intro ⟨width, hname, hnumeral, hlt, hpos, htakes, hl'⟩
    have hread : Text.readNumber 10 0x100000000 digits = .ok width :=
      (Text.readNumber_ten (by decide)).2 ⟨hnumeral, hlt⟩
    rw [readField, hread]
    dsimp only
    rw [if_neg, if_neg, if_neg, hl']
    · rw [any_name]
      exact List.disjoint_singleton.1 htakes.fresh
    · exact Nat.not_lt.2 htakes.enough
    · rw [String.isEmpty_iff, String.ofList_eq_empty_iff]
      exact not_or.2 ⟨hname, Nat.ne_of_gt hpos⟩

/-- A word is read as a token that it spells, if there is room for it. -/
lemma readToken_ok : readToken spec l w = .ok l' ↔ ∃ t, t.Spells w ∧ l.Takes t ∧ l' = l.add t := by
  by_cases hw : ':' ∈ w
  · obtain ⟨name, digits, rfl, hname⟩ := List.eq_append_cons_of_mem hw
    rw [readToken, span_colon hname]
    dsimp only
    rw [readField_ok]
    constructor
    · intro ⟨width, hne, hnumeral, hlt, hpos, htakes, hl'⟩
      exact ⟨_, .field hne hname hnumeral hlt hpos, htakes, hl'⟩
    · intro ⟨t, ht, htakes, hl'⟩
      obtain ⟨width, rfl, hne, hnumeral, hlt, hpos⟩ := ht.field_inv hname
      exact ⟨width, hne, hnumeral, hlt, hpos, htakes, hl'⟩
  · rw [readToken, span_no_colon hw]
    dsimp only
    rw [foldlM_readBit_ok]
    constructor
    · intro ⟨values, hbits, hlen, hl'⟩
      rw [hbits]
      exact ⟨.bits values, .bits, ⟨hlen, nofun⟩, hl'⟩
    · intro ⟨t, ht, htakes, hl'⟩
      obtain ⟨values, rfl, hbits⟩ := ht.bits_inv hw
      exact ⟨values, hbits, htakes.enough, hl'⟩

/-! ### All tokens -/

/-- Whether the bits that are left are enough for tokens, and their names are new and distinct. -/
structure Room (l : Layout) (ts : List Token) : Prop where
  enough : totalWidth ts ≤ l.remaining
  distinct : (declared ts).Nodup
  fresh : l.names.Disjoint (declared ts)

lemma room_nil : l.Room [] := ⟨Nat.zero_le _, List.nodup_nil, nofun⟩

lemma room_cons {t : Token} : l.Room (t :: ts) ↔ l.Takes t ∧ (l.add t).Room ts := by
  have hwidth : totalWidth (t :: ts) = t.width + totalWidth ts := rfl
  have hnames : declared (t :: ts) = t.names ++ declared ts := rfl
  have hself : t.names.Nodup := by
    cases t with
    | bits => exact List.nodup_nil
    | field name => exact List.nodup_cons.2 ⟨List.not_mem_nil, List.nodup_nil⟩
  constructor
  · intro ⟨henough, hdistinct, hfresh⟩
    rw [hwidth] at henough
    rw [hnames, List.nodup_append'] at hdistinct
    rw [hnames, List.disjoint_append_right] at hfresh
    refine ⟨⟨by omega, hfresh.1⟩, ⟨?_, hdistinct.2.1, ?_⟩⟩
    · rw [add_remaining]
      omega
    · rw [add_names, List.disjoint_append_left]
      exact ⟨hfresh.2, hdistinct.2.2⟩
  · intro ⟨⟨henough, hnew⟩, ⟨henough', hdistinct, hfresh⟩⟩
    rw [add_remaining] at henough'
    rw [add_names, List.disjoint_append_left] at hfresh
    refine ⟨?_, ?_, ?_⟩
    · rw [hwidth]
      omega
    · rw [hnames, List.nodup_append']
      exact ⟨hself, hdistinct, hfresh.2⟩
    · rw [hnames, List.disjoint_append_right]
      exact ⟨hnew, hfresh.1⟩

/-- Words are read as the tokens that they spell, if there is room for them. -/
lemma foldlM_readToken_ok {ws : List (List Char)} : ws.foldlM (readToken spec) l = .ok l' ↔
    ∃ ts, List.Forall₂ Token.Spells ts ws ∧ l.Room ts ∧ l' = ts.foldl add l := by
  induction ws generalizing l with
  | nil =>
    constructor
    · intro h
      cases h
      exact ⟨[], .nil, room_nil, rfl⟩
    · intro ⟨ts, hts, _, hl'⟩
      cases hts
      rw [hl']
      rfl
  | cons w ws ih =>
    rw [List.foldlM_cons, except_bind_eq_ok]
    simp only [readToken_ok, ih]
    constructor
    · intro ⟨_, ⟨t, ht, htakes, rfl⟩, ts, hts, hroom, hl'⟩
      exact ⟨t :: ts, .cons ht hts, room_cons.2 ⟨htakes, hroom⟩, hl'⟩
    · intro ⟨ts, hts, hroom, hl'⟩
      cases hts with
      | @cons t _ ts _ ht hts =>
        obtain ⟨htakes, hroom⟩ := room_cons.1 hroom
        exact ⟨_, ⟨t, ht, htakes, rfl⟩, ts, hts, hroom, hl'⟩

lemma foldl_add_remaining (ts : List Token) (l : Layout) :
    (ts.foldl add l).remaining = l.remaining - totalWidth ts := by
  induction ts generalizing l with
  | nil => rfl
  | cons t ts ih =>
    calc
      (ts.foldl add (l.add t)).remaining = l.remaining - t.width - totalWidth ts := by
        rw [ih, add_remaining]
      _ = l.remaining - totalWidth (t :: ts) := Nat.sub_sub ..

/-- What has been described, as a pattern. -/
def pattern (l : Layout) : Pattern := ⟨l.mask, l.value, l.fields⟩

end Layout

/-- Tokens describe a word: they have its 32 bits, and declare every name once. -/
structure Complete (ts : List Token) : Prop where
  total : totalWidth ts = 32
  distinct : (declared ts).Nodup

/-- The reader takes the texts of the language, and describes bits by one token after the other. -/
lemma Pattern.parse_ok {spec : String} {p : Pattern} : parse spec = .ok p ↔
    ∃ ts, Written ts spec.toList ∧ Complete ts ∧ p = (ts.foldl Layout.add .start).pattern := by
  rw [parse, except_bind_eq_ok]
  simp only [Layout.foldlM_readToken_ok]
  constructor
  · intro ⟨_, ⟨ts, hts, hroom, rfl⟩, h⟩
    split at h
    · next hleft =>
      rw [Layout.foldl_add_remaining, Nat.sub_eq_zero_iff_le] at hleft
      cases h
      exact ⟨ts, ⟨_, Text.words_eq_iff.1 rfl, hts⟩, ⟨Nat.le_antisymm hroom.enough hleft, hroom.distinct⟩, rfl⟩
    · cases h
  · intro ⟨ts, ⟨ws, hws, hts⟩, hcomplete, hp⟩
    rw [Text.words_eq_iff.2 hws]
    refine ⟨_, ⟨ts, hts, ⟨hcomplete.total.le, hcomplete.distinct, List.disjoint_nil_left _⟩, rfl⟩, ?_⟩
    rw [if_pos, hp]
    · rfl
    · rw [Layout.foldl_add_remaining, hcomplete.total]
      rfl

end Dynarec.Encoding
