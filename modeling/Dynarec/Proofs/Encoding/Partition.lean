import Dynarec.Proofs.Encoding.Language

/-!
# How a pattern divides a word

The tokens of a pattern describe the bits of a word from bit 31 down, so every bit is fixed or belongs to one
field. A word is therefore put together again from its fixed bits and its fields, and there is exactly one for
every choice of values that fit the fields.
-/

namespace Dynarec.Encoding

/-- Whether a bit of a word belongs to a field. -/
def Field.Covers (f : Field) (i : Nat) : Prop := f.lsb ≤ i ∧ i < f.lsb + f.width

/-- Every bit of a word is either fixed or belongs to a field, of which no two overlap: they stand in order
from the highest bits down. Fixed values are given for fixed bits only. -/
structure Pattern.Partitions (p : Pattern) : Prop where
  covered : ∀ i < 32, p.mask.toNat.testBit i = false ↔ ∃ f ∈ p.fields, f.Covers i
  inside : ∀ f ∈ p.fields, f.lsb + f.width ≤ 32
  descending : p.fields.Pairwise fun f g => g.lsb + g.width ≤ f.lsb
  value : p.value &&& p.mask = p.value

/-- The fixed bits of a pattern, with values put into its fields. -/
def Pattern.assemble (p : Pattern) (values : List Nat) : Nat :=
  (p.fields.zip values).foldl (fun word (f, v) => word ||| v <<< f.lsb) p.value.toNat

/-- Values that fit the fields of a pattern, one for each. -/
def Pattern.Fits (p : Pattern) (values : List Nat) : Prop :=
  List.Forall₂ (fun f v => v < 2 ^ f.width) p.fields values

/-- The values of the fields of a word, in the order of its pattern. -/
def Pattern.valuesIn (p : Pattern) (word : UInt32) : List Nat := (p.extract word).values.map Prod.snd

/-! ### Putting a word together -/

section
variable {p : Pattern} {f : Field} {v i : Nat} {values : List Nat} {word : UInt32}

/-- A number has no bits above those that it fits. -/
lemma testBit_of_lt {n k : Nat} (hv : v < 2 ^ n) (hk : n ≤ k) : v.testBit k = false :=
  Nat.testBit_lt_two_pow (Nat.lt_of_lt_of_le hv (Nat.pow_le_pow_right (by decide) hk))

lemma eq_of_testBit {v w : UInt32} (h : ∀ i < 32, v.toNat.testBit i = w.toNat.testBit i) : v = w := by
  apply UInt32.toNat_inj.1
  apply Nat.eq_of_testBit_eq
  intro i
  by_cases hi : i < 32
  · exact h i hi
  · rw [testBit_of_lt v.toNat_lt (Nat.not_lt.1 hi), testBit_of_lt w.toNat_lt (Nat.not_lt.1 hi)]

lemma Field.testBit_extract {j : Nat} :
    (f.extract word).testBit j = (decide (j < f.width) && word.toNat.testBit (f.lsb + j)) := by
  rw [extract, Nat.one_shiftLeft, Nat.testBit_mod_two_pow, Nat.testBit_shiftRight]

namespace Pattern

lemma valuesIn_eq : p.valuesIn word = p.fields.map (·.extract word) := by
  rw [valuesIn, extract, List.map_map]
  rfl

lemma fits_valuesIn : p.Fits (p.valuesIn word) := by
  rw [valuesIn_eq, Fits, List.forall₂_map_right_iff, List.forall₂_same]
  intro f _
  rw [Field.extract, Nat.one_shiftLeft]
  exact Nat.mod_lt _ (Nat.two_pow_pos _)

lemma fixedBitsMatch_iff : p.fixedBitsMatch word ↔ word &&& p.mask = p.value := beq_iff_eq

lemma testBit_foldl (es : List (Field × Nat)) (start : Nat) :
    (es.foldl (fun word (f, v) => word ||| v <<< f.lsb) start).testBit i = true ↔
      start.testBit i = true ∨ ∃ e ∈ es, e.1.lsb ≤ i ∧ e.2.testBit (i - e.1.lsb) = true := by
  induction es generalizing start with
  | nil => simp
  | cons e es ih =>
    simp [ih, or_assoc]

lemma testBit_assemble : (p.assemble values).testBit i = true ↔ p.value.toNat.testBit i = true ∨
    ∃ e ∈ p.fields.zip values, e.1.lsb ≤ i ∧ e.2.testBit (i - e.1.lsb) = true :=
  testBit_foldl _ _

/-- A value reaches only the bits of the field that it fits. -/
lemma Fits.covers (h : p.Fits values) {e : Field × Nat} (he : e ∈ p.fields.zip values)
    (hle : e.1.lsb ≤ i) (hbit : e.2.testBit (i - e.1.lsb) = true) : e.1.Covers i := by
  have hlt : e.2 < 2 ^ e.1.width := (List.forall₂_iff_zip.1 h).2 he
  have hin : i - e.1.lsb < e.1.width := by
    by_contra hout
    rw [testBit_of_lt hlt (Nat.not_lt.1 hout)] at hbit
    cases hbit
  exact ⟨hle, by omega⟩

/-- A bit that belongs to a field is not fixed. -/
lemma Partitions.free (hp : p.Partitions) (hf : f ∈ p.fields) (hcovers : f.Covers i) :
    p.mask.toNat.testBit i = false :=
  (hp.covered i (Nat.lt_of_lt_of_le hcovers.2 (hp.inside f hf))).2 ⟨f, hf, hcovers⟩

/-- A bit that is not fixed has no fixed value. -/
lemma Partitions.value_of_free (hp : p.Partitions) (hfree : p.mask.toNat.testBit i = false) :
    p.value.toNat.testBit i = false := by
  rw [← hp.value, UInt32.toNat_and, Nat.testBit_and, hfree, Bool.and_false]

/-- A bit belongs to one field at most. -/
lemma Partitions.unique (hp : p.Partitions) (h : p.Fits values) {e e' : Field × Nat}
    (he : e ∈ p.fields.zip values) (he' : e' ∈ p.fields.zip values) (hcovers : e.1.Covers i)
    (hcovers' : e'.1.Covers i) : e = e' := by
  have hdescending : (p.fields.zip values).Pairwise fun e e' => e'.1.lsb + e'.1.width ≤ e.1.lsb := by
    have := hp.descending
    rwa [← List.map_fst_zip (List.Forall₂.length_eq h).le, List.pairwise_map] at this
  have hapart : (p.fields.zip values).Pairwise fun e e' => ¬(e.1.Covers i ∧ e'.1.Covers i) := by
    apply hdescending.imp
    intro e e' hle ⟨hcovers, hcovers'⟩
    exact absurd hcovers'.2 (Nat.not_lt.2 (Nat.le_trans hle hcovers.1))
  have : Std.Symm fun e e' : Field × Nat => ¬(e.1.Covers i ∧ e'.1.Covers i) :=
    ⟨fun _ _ hnot hboth => hnot hboth.symm⟩
  by_contra hne
  exact hapart.forall he he' hne ⟨hcovers, hcovers'⟩

/-- The bits of a field are those of its value. -/
lemma Partitions.testBit_field (hp : p.Partitions) (h : p.Fits values) {e : Field × Nat}
    (he : e ∈ p.fields.zip values) (hcovers : e.1.Covers i) :
    (p.assemble values).testBit i = e.2.testBit (i - e.1.lsb) := by
  have hvalue := hp.value_of_free (hp.free (List.of_mem_zip he).1 hcovers)
  rw [Bool.eq_iff_iff, testBit_assemble, hvalue]
  constructor
  · intro hbit
    cases hbit with
    | inl hbit => cases hbit
    | inr hbit =>
      obtain ⟨e', he', hle, hbit⟩ := hbit
      rwa [← hp.unique h he' he (h.covers he' hle hbit) hcovers]
  · intro hbit
    exact .inr ⟨e, he, hcovers.1, hbit⟩

/-- The bits outside of the fields are those of the pattern. -/
lemma Fits.testBit_outside (h : p.Fits values) (houtside : ∀ f ∈ p.fields, ¬f.Covers i) :
    (p.assemble values).testBit i = p.value.toNat.testBit i := by
  rw [Bool.eq_iff_iff, testBit_assemble, or_iff_left]
  intro ⟨e, he, hle, hbit⟩
  exact houtside e.1 (List.of_mem_zip he).1 (h.covers he hle hbit)

lemma Partitions.testBit_fixed (hp : p.Partitions) (h : p.Fits values)
    (hfixed : p.mask.toNat.testBit i = true) :
    (p.assemble values).testBit i = p.value.toNat.testBit i := by
  apply h.testBit_outside
  intro f hf hcovers
  rw [hp.free hf hcovers] at hfixed
  cases hfixed

lemma Partitions.assemble_lt (hp : p.Partitions) (h : p.Fits values) : p.assemble values < 2 ^ 32 := by
  apply Nat.lt_pow_two_of_testBit
  intro i hi
  rw [h.testBit_outside]
  · exact testBit_of_lt p.value.toNat_lt hi
  · intro f hf hcovers
    have := hp.inside f hf
    have := hcovers.2
    omega

/-- A word with the fixed bits of a pattern consists of these and of its fields. -/
lemma Partitions.assemble_valuesIn (hp : p.Partitions) (hword : p.fixedBitsMatch word) :
    word.toNat = p.assemble (p.valuesIn word) := by
  rw [fixedBitsMatch_iff] at hword
  apply Nat.eq_of_testBit_eq
  intro i
  by_cases hi : i < 32
  · cases hmask : p.mask.toNat.testBit i with
    | true =>
      rw [hp.testBit_fixed fits_valuesIn hmask, ← hword, UInt32.toNat_and, Nat.testBit_and, hmask,
        Bool.and_true]
    | false =>
      obtain ⟨f, hf, hcovers⟩ := (hp.covered i hi).1 hmask
      have he : (f, f.extract word) ∈ p.fields.zip (p.valuesIn word) := by
        rw [valuesIn_eq, ← List.map_prod_left_eq_zip]
        exact List.mem_map_of_mem hf
      have hin : i - f.lsb < f.width := Nat.sub_lt_left_of_lt_add hcovers.1 hcovers.2
      rw [hp.testBit_field fits_valuesIn he hcovers, Field.testBit_extract, decide_eq_true hin,
        Bool.true_and, Nat.add_sub_cancel' hcovers.1]
  · rw [testBit_of_lt word.toNat_lt (Nat.not_lt.1 hi),
      testBit_of_lt (hp.assemble_lt fits_valuesIn) (Nat.not_lt.1 hi)]

/-- Values that fit the fields are in one word only that has the fixed bits. -/
lemma Partitions.existsUnique (hp : p.Partitions) (h : p.Fits values) :
    ∃! word, p.fixedBitsMatch word ∧ p.valuesIn word = values := by
  have hword : (UInt32.ofNat (p.assemble values)).toNat = p.assemble values :=
    UInt32.toNat_ofNat_of_lt' (hp.assemble_lt h)
  refine ⟨UInt32.ofNat (p.assemble values), ⟨?_, ?_⟩, ?_⟩
  · rw [fixedBitsMatch_iff]
    apply eq_of_testBit
    intro i _
    rw [UInt32.toNat_and, Nat.testBit_and, hword]
    cases hmask : p.mask.toNat.testBit i with
    | true => rw [hp.testBit_fixed h hmask, Bool.and_true]
    | false => rw [hp.value_of_free hmask, Bool.and_false]
  · rw [valuesIn_eq, ← List.forall₂_eq_eq_eq, List.forall₂_map_left_iff, List.forall₂_iff_zip]
    refine ⟨List.Forall₂.length_eq h, fun {f v} he => ?_⟩
    have hv : v < 2 ^ f.width := (List.forall₂_iff_zip.1 h).2 he
    apply Nat.eq_of_testBit_eq
    intro j
    rw [Field.testBit_extract, hword]
    by_cases hj : j < f.width
    · have hcovers : f.Covers (f.lsb + j) := ⟨Nat.le_add_right _ _, Nat.add_lt_add_left hj _⟩
      rw [hp.testBit_field h he hcovers, Nat.add_sub_cancel_left, decide_eq_true hj, Bool.true_and]
    · rw [decide_eq_false hj, Bool.false_and, testBit_of_lt hv (Nat.not_lt.1 hj)]
  · intro word ⟨hmatch, hvalues⟩
    apply UInt32.toNat_inj.1
    rw [hword, hp.assemble_valuesIn hmatch, hvalues]

end Pattern
end

/-! ### From bit 31 down -/

/-- The bits that a token describes, from the highest on: the value of a fixed one. -/
def Token.cells : Token → List (Option Bool)
  | .bits values => values.map some
  | .field _ width => List.replicate width none

/-- The bits of a word that tokens describe, from the highest on. -/
def cells (ts : List Token) : List (Option Bool) := ts.flatMap Token.cells

/-- The fields among tokens of which the last one ends at bit 0. -/
def placed : List Token → List Field
  | [] => []
  | .bits _ :: ts => placed ts
  | .field name width :: ts => ⟨name, totalWidth ts, width, none⟩ :: placed ts

/-- A pattern describes the bits from bit 31 down as tokens do in their order. -/
structure Pattern.Lays (p : Pattern) (ts : List Token) : Prop where
  mask : ∀ i < 32, p.mask.toNat.testBit i = true ↔ ∃ b, (cells ts)[31 - i]? = some (some b)
  value : ∀ i < 32, p.value.toNat.testBit i = true ↔ (cells ts)[31 - i]? = some (some true)
  fields : p.fields = placed ts

section
variable {ts : List Token} {i : Nat}

lemma Token.length_cells (t : Token) : t.cells.length = t.width := by
  cases t with
  | bits values => exact List.length_map _
  | field name width => exact List.length_replicate

lemma length_cells (ts : List Token) : (cells ts).length = totalWidth ts := by
  induction ts with
  | nil => rfl
  | cons t ts ih =>
    show (t.cells ++ cells ts).length = t.width + totalWidth ts
    rw [List.length_append, ih, t.length_cells]

lemma placed_inside : ∀ f ∈ placed ts, f.lsb + f.width ≤ totalWidth ts := by
  induction ts with
  | nil => exact nofun
  | cons t ts ih =>
    intro f hf
    have hle : totalWidth ts ≤ totalWidth (t :: ts) := Nat.le_add_left _ t.width
    cases t with
    | bits values => exact Nat.le_trans (ih f hf) hle
    | field name width =>
      cases hf with
      | head => exact (Nat.add_comm _ _).le
      | tail _ hf => exact Nat.le_trans (ih f hf) hle

lemma placed_descending : (placed ts).Pairwise fun f g => g.lsb + g.width ≤ f.lsb := by
  induction ts with
  | nil => exact .nil
  | cons t ts ih =>
    cases t with
    | bits values => exact ih
    | field name width => exact .cons placed_inside ih

/-- A bit has no fixed value exactly if it belongs to a field. -/
lemma placed_covers (hi : i < totalWidth ts) :
    (cells ts)[totalWidth ts - 1 - i]? = some none ↔ ∃ f ∈ placed ts, f.Covers i := by
  induction ts with
  | nil => cases hi
  | cons t ts ih =>
    have hcells : cells (t :: ts) = t.cells ++ cells ts := rfl
    have hwidth : totalWidth (t :: ts) = t.width + totalWidth ts := rfl
    rw [hwidth] at hi ⊢
    rw [hcells]
    by_cases hlow : i < totalWidth ts
    · have hindex : t.width + totalWidth ts - 1 - i = t.cells.length + (totalWidth ts - 1 - i) := by
        rw [t.length_cells]
        omega
      rw [hindex, List.getElem?_append_right (Nat.le_add_right _ _), Nat.add_sub_cancel_left, ih hlow]
      cases t with
      | bits values => rfl
      | field name width =>
        -- the field stands above the bit
        rw [placed, List.exists_mem_cons_iff, or_iff_right]
        intro hcovers
        exact Nat.not_lt.2 hcovers.1 hlow
    · have hhigh : t.width + totalWidth ts - 1 - i < t.cells.length := by
        rw [t.length_cells]
        omega
      have hbelow : ¬∃ f ∈ placed ts, f.Covers i := by
        intro ⟨f, hf, hcovers⟩
        exact hlow (Nat.lt_of_lt_of_le hcovers.2 (placed_inside f hf))
      rw [List.getElem?_append_left hhigh]
      cases t with
      | bits values =>
        refine iff_of_false (fun h => ?_) hbelow
        rw [Token.cells, List.getElem?_map, Option.map_eq_some_iff] at h
        obtain ⟨b, _, hb⟩ := h
        cases hb
      | field name width =>
        have hin : i < totalWidth ts + width := Nat.add_comm _ _ ▸ hi
        apply iff_of_true
        · rw [Token.cells, List.getElem?_replicate_of_lt]
          exact Nat.lt_of_lt_of_eq hhigh List.length_replicate
        · rw [placed, List.exists_mem_cons_iff]
          exact .inl ⟨Nat.not_lt.1 hlow, hin⟩

/-- A pattern whose tokens describe a whole word divides it. -/
lemma Pattern.Lays.partitions {p : Pattern} (h : p.Lays ts) (htotal : totalWidth ts = 32) :
    p.Partitions where
  covered i hi := by
    have hcovers := placed_covers (htotal ▸ hi : i < totalWidth ts)
    rw [htotal] at hcovers
    have hlength : 32 - 1 - i < (cells ts).length := by
      rw [length_cells]
      omega
    rw [h.fields, ← hcovers, ← Bool.not_eq_true, h.mask i hi, List.getElem?_eq_getElem hlength]
    cases (cells ts)[32 - 1 - i] with
    | none => simp
    | some b => simp
  inside f hf := by
    rw [h.fields] at hf
    exact Nat.le_trans (placed_inside f hf) htotal.le
  descending := by
    rw [h.fields]
    exact placed_descending
  value := by
    apply eq_of_testBit
    intro i hi
    rw [UInt32.toNat_and, Nat.testBit_and, Bool.eq_iff_iff, Bool.and_eq_true, h.mask i hi, and_iff_left_iff_imp,
      h.value i hi]
    exact fun hbit => ⟨true, hbit⟩

/-! ### What the reader lays out -/

/-- A layout describes the highest bits of a word: `shown` are these from bit 31 on. -/
structure Layout.Shows (l : Layout) (shown : List (Option Bool)) : Prop where
  left : l.remaining + shown.length = 32
  mask : ∀ i < 32, l.mask.toNat.testBit i = true ↔ ∃ b, shown[31 - i]? = some (some b)
  value : ∀ i < 32, l.value.toNat.testBit i = true ↔ shown[31 - i]? = some (some true)

namespace Layout

variable {l : Layout} {shown : List (Option Bool)}

lemma shows_start : start.Shows [] := by
  refine ⟨rfl, fun i hi => ?_, fun i hi => ?_⟩
  · simp [start]
  · simp [start]

/-- A bit that is described next is shown last. -/
lemma Shows.getElem?_next (h : l.Shows shown) (hl : 1 ≤ l.remaining) (cell : Option Bool) {i : Nat}
    (hi : i < 32) :
    (shown ++ [cell])[31 - i]? = if l.remaining - 1 = i then some cell else shown[31 - i]? := by
  have hleft := h.left
  split
  · rw [List.getElem?_append_right (by omega), List.getElem?_singleton, if_pos (by omega)]
  · by_cases hlt : 31 - i < shown.length
    · exact List.getElem?_append_left hlt
    · have hlast : (shown ++ [cell]).length ≤ 31 - i := by
        rw [List.length_append, List.length_singleton]
        omega
      rw [List.getElem?_eq_none hlast, List.getElem?_eq_none (Nat.not_lt.1 hlt)]

lemma toNat_place {k : Nat} (hk : k < 32) : (1 <<< UInt32.ofNat k : UInt32).toNat = 2 ^ k := by
  have hpow : 2 ^ k < 2 ^ 32 := Nat.pow_lt_pow_right (by decide) hk
  simp only [UInt32.toNat_shiftLeft, UInt32.toNat_ofNat', UInt32.reduceToNat, Nat.one_shiftLeft]
  rw [Nat.mod_eq_of_lt (by omega : k < 2 ^ 32), Nat.mod_eq_of_lt hk, Nat.mod_eq_of_lt hpow]

lemma Shows.addBit (h : l.Shows shown) (b : Bool) (hl : 1 ≤ l.remaining) :
    (l.addBit b).Shows (shown ++ [some b]) := by
  have hleft := h.left
  have hplace : ∀ i, (1 <<< UInt32.ofNat (l.remaining - 1) : UInt32).toNat.testBit i =
      decide (l.remaining - 1 = i) := by
    intro i
    rw [toNat_place (by omega), Nat.testBit_two_pow]
  constructor
  · show l.remaining - 1 + (shown ++ [some b]).length = 32
    rw [List.length_append, List.length_singleton]
    omega
  · intro i hi
    show (l.mask ||| 1 <<< UInt32.ofNat (l.remaining - 1)).toNat.testBit i = true ↔ _
    rw [UInt32.toNat_or, Nat.testBit_or, hplace, Bool.or_eq_true, h.mask i hi, h.getElem?_next hl _ hi]
    by_cases hnext : l.remaining - 1 = i
    · simp [hnext]
    · simp [hnext]
  · intro i hi
    show (if b then l.value ||| 1 <<< UInt32.ofNat (l.remaining - 1) else l.value).toNat.testBit i =
      true ↔ _
    rw [h.getElem?_next hl _ hi]
    cases b with
    | true =>
      rw [if_pos rfl, UInt32.toNat_or, Nat.testBit_or, hplace, Bool.or_eq_true, h.value i hi]
      by_cases hnext : l.remaining - 1 = i
      · simp [hnext]
      · simp [hnext]
    | false =>
      rw [if_neg Bool.false_ne_true, h.value i hi]
      by_cases hnext : l.remaining - 1 = i
      · rw [if_pos hnext, List.getElem?_eq_none (by omega)]
        simp
      · rw [if_neg hnext]

/-- The bits of a field are shown without values. -/
lemma getElem?_append_none (shown : List (Option Bool)) (width k : Nat) (b : Bool) :
    (shown ++ List.replicate width none)[k]? = some (some b) ↔ shown[k]? = some (some b) := by
  by_cases hk : k < shown.length
  · rw [List.getElem?_append_left hk]
  · rw [List.getElem?_append_right (Nat.not_lt.1 hk), List.getElem?_eq_none (Nat.not_lt.1 hk),
      List.getElem?_replicate]
    split
    · simp
    · rfl

lemma Shows.addField (h : l.Shows shown) (name : String) {width : Nat} (hl : width ≤ l.remaining) :
    (l.addField name width).Shows (shown ++ List.replicate width none) := by
  have hleft := h.left
  constructor
  · show l.remaining - width + (shown ++ List.replicate width none).length = 32
    rw [List.length_append, List.length_replicate]
    omega
  · intro i hi
    simp only [getElem?_append_none]
    exact h.mask i hi
  · intro i hi
    rw [getElem?_append_none]
    exact h.value i hi

lemma Shows.add (h : l.Shows shown) {t : Token} (hl : t.width ≤ l.remaining) :
    (l.add t).Shows (shown ++ t.cells) := by
  cases t with
  | bits values =>
    induction values generalizing l shown with
    | nil =>
      rw [Token.cells, List.map_nil, List.append_nil]
      exact h
    | cons b values ih =>
      have hl' : values.length + 1 ≤ l.remaining := hl
      have hrest := ih (h.addBit b (by omega)) (Nat.le_sub_of_add_le hl')
      rwa [List.append_assoc] at hrest
  | field name width => exact h.addField name hl

/-- The bits that tokens describe are shown after those before them. -/
lemma Shows.foldl (h : l.Shows shown) (hl : totalWidth ts ≤ l.remaining) :
    (ts.foldl Layout.add l).Shows (shown ++ cells ts) := by
  induction ts generalizing l shown with
  | nil =>
    rw [cells, List.flatMap_nil, List.append_nil]
    exact h
  | cons t ts ih =>
    have hwidth : t.width + totalWidth ts ≤ l.remaining := hl
    have hnext : totalWidth ts ≤ (l.add t).remaining := by
      rw [add_remaining]
      omega
    have hrest := ih (h.add (by omega)) hnext
    rwa [List.append_assoc] at hrest

/-- The fields of tokens that describe all of the bits that are left. -/
lemma foldl_add_fields (hl : l.remaining = totalWidth ts) :
    (ts.foldl Layout.add l).fields = l.fields ++ placed ts := by
  induction ts generalizing l with
  | nil => exact (List.append_nil _).symm
  | cons t ts ih =>
    have hwidth : totalWidth (t :: ts) = t.width + totalWidth ts := rfl
    have hnext : (l.add t).remaining = totalWidth ts := by
      rw [add_remaining, hl, hwidth, Nat.add_sub_cancel_left]
    rw [List.foldl_cons, ih hnext]
    cases t with
    | bits values => rw [add, (foldl_addBit values l).2, placed]
    | field name width =>
      have hlsb : l.remaining - width = totalWidth ts := hnext
      show l.fields ++ [⟨name, l.remaining - width, width, none⟩] ++ placed ts = _
      rw [hlsb, List.append_assoc]
      rfl

/-- Tokens that describe a whole word are laid out from bit 31 down. -/
lemma lays_foldl (htotal : totalWidth ts = 32) : (ts.foldl Layout.add start).pattern.Lays ts where
  mask := (shows_start.foldl htotal.le).mask
  value := (shows_start.foldl htotal.le).value
  fields := foldl_add_fields htotal.symm

end Layout

/-- The reader of patterns takes a text exactly if it consists of tokens that describe 32 bits and declare every
name once. The pattern that it gives describes the bits from bit 31 down as the tokens do in their order, and
divides the word: a word with its fixed bits consists of these and of its fields, and for all values that fit the
fields exactly one word has the fixed bits and these values. -/
theorem Pattern.parse_divides (spec : String) :
    ((∃ p, parse spec = .ok p) ↔ ∃ ts, Written ts spec.toList ∧ Complete ts) ∧
      ∀ p, parse spec = .ok p → (∃ ts, Written ts spec.toList ∧ p.Lays ts) ∧ p.Partitions ∧
        (∀ word, p.fixedBitsMatch word → word.toNat = p.assemble (p.valuesIn word)) ∧
        ∀ values, p.Fits values → ∃! word, p.fixedBitsMatch word ∧ p.valuesIn word = values := by
  constructor
  · constructor
    · intro ⟨p, h⟩
      obtain ⟨ts, hts, hcomplete, _⟩ := parse_ok.1 h
      exact ⟨ts, hts, hcomplete⟩
    · intro ⟨ts, hts, hcomplete⟩
      exact ⟨_, parse_ok.2 ⟨ts, hts, hcomplete, rfl⟩⟩
  · intro p h
    obtain ⟨ts, hts, hcomplete, rfl⟩ := parse_ok.1 h
    have hlays := Layout.lays_foldl hcomplete.total
    have hpartitions := hlays.partitions hcomplete.total
    exact ⟨⟨ts, hts, hlays⟩, hpartitions, fun _ hword => hpartitions.assemble_valuesIn hword,
      fun _ hvalues => hpartitions.existsUnique hvalues⟩

/-- The pattern of a subtraction that sets the flags, a word of it, and the only word with given operands. -/
theorem Pattern.parse_divides_subs :
    let spec := String.ofList ['s', 'f', ':', '1', ' ', '1', '1', ' ', '1', '0', '0', '0', '1', '0', ' ',
      's', 'h', ':', '1', ' ', 'i', 'm', 'm', ':', '1', '2', ' ', 'R', 'n', ':', '5', ' ', 'R', 'd', ':', '5']
    let p : Pattern := ⟨0x7f800000, 0x71000000, [⟨"sf", 31, 1, none⟩, ⟨"sh", 22, 1, none⟩,
      ⟨"imm", 10, 12, none⟩, ⟨"Rn", 5, 5, none⟩, ⟨"Rd", 0, 5, none⟩]⟩
    parse spec = .ok p ∧ p.Partitions ∧
      (p.fixedBitsMatch 0xf1000400 ∧ 0xf1000400 = p.assemble (p.valuesIn 0xf1000400)) ∧
      (p.Fits [1, 0, 1, 0, 0] ∧ ∃! word, p.fixedBitsMatch word ∧ p.valuesIn word = [1, 0, 1, 0, 0]) := by
  intro spec p
  have hparse : parse spec = .ok p := by
    rw [parse, String.toList_ofList]
    rfl
  have hword : p.fixedBitsMatch 0xf1000400 := by decide
  have hfits : p.Fits [1, 0, 1, 0, 0] := by
    unfold Fits
    decide
  obtain ⟨_, hpartitions, hassemble, hunique⟩ := (parse_divides spec).2 p hparse
  exact ⟨hparse, hpartitions, ⟨hword, hassemble _ hword⟩, hfits, hunique _ hfits⟩

end

end Dynarec.Encoding
