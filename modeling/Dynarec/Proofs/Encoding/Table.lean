import Dynarec.Encoding.Table
import Mathlib.Tactic.Common

/-!
# Looking words up

The bucket of a word holds every entry that accepts it, so a table finds the same entry in the bucket as
in the whole list, the first one that describes the word. A word whose fixed bits are those of one entry only
is found there or nowhere.
-/

namespace Dynarec.Encoding

variable {α : Type} {word mask value : UInt32} {p : Pattern}

/-! ### Buckets -/

/-- The bits that choose a bucket are not among the lowest. -/
lemma Table.bucketMask_low (word : UInt32) :
    (word &&& bucketMask) >>> 25 <<< 25 = word &&& bucketMask := by
  have hlow : ∀ i < 25, (0x1e000000#32).getLsbD i = false := by decide
  apply UInt32.toBitVec_inj.1
  apply BitVec.eq_of_getLsbD_eq
  intro i hi
  by_cases hi25 : i < 25
  · simp [bucketMask, hi25, hlow i hi25]
  · simp [bucketMask, hi25, hi, Nat.add_sub_cancel' (Nat.not_lt.1 hi25)]

lemma Table.bucket_lt (word : UInt32) : ((word &&& bucketMask) >>> 25).toNat < 16 := by
  have hle : (word &&& bucketMask).toNat ≤ 0x1e000000 := by
    rw [UInt32.toNat_and]
    exact Nat.and_le_right
  have hdiv : ((word &&& bucketMask) >>> 25).toNat = (word &&& bucketMask).toNat / 2 ^ 25 := by
    rw [UInt32.toNat_shiftRight, ← Nat.shiftRight_eq_div_pow]
    rfl
  omega

lemma Table.keyBits_key (word : UInt32) : keyBits (key word).val = word &&& bucketMask := by
  show UInt32.ofNat (((word &&& bucketMask) >>> 25).toNat % 16) <<< 25 = word &&& bucketMask
  rw [Nat.mod_eq_of_lt (bucket_lt word), UInt32.ofNat_toNat, bucketMask_low]

/-- A pattern that accepts a word is compatible with the bucket of the word. -/
lemma Table.compatible_key (h : p.accepts word) : compatible (key word).val p := by
  have hfixed : word &&& p.mask = p.value := by
    simp only [Pattern.accepts, Pattern.fixedBitsMatch, Bool.and_eq_true, beq_iff_eq] at h
    exact h.1
  rw [compatible, beq_iff_eq, keyBits_key, ← hfixed]
  ac_rfl

/-- Looking in the bucket finds what looking through the whole table does. -/
lemma Table.decode_ofList (es : List (Pattern × α)) (word : UInt32) :
    (Table.ofList es).decode word = find es word := by
  have hbucket : (Table.ofList es).buckets[key word] =
      es.filter fun e => compatible (key word).val e.1 := by
    simp [Table.ofList]
  have hsame : (es.filter fun e => compatible (key word).val e.1).find? (·.1.accepts word) =
      es.find? (·.1.accepts word) := by
    rw [List.find?_filter]
    congr 1
    funext e
    cases he : e.1.accepts word with
    | false => simp
    | true => simp [compatible_key he]
  rw [Table.decode, find, find, hbucket, hsame]

/-! ### The first entry that describes a word -/

/-- A value is none of those that are excluded, or one of those that are allowed only. -/
inductive Constraint.Allows : Constraint → Nat → Prop where
  | exclude {values : List Nat} {v : Nat} : v ∉ values → Allows (.exclude values) v
  | only {values : List Nat} {v : Nat} : v ∈ values → Allows (.only values) v

/-- A word has the fixed bits of a pattern, and the values of its constrained fields are allowed. -/
structure Pattern.Describes (p : Pattern) (word : UInt32) : Prop where
  fixed : word &&& p.mask = p.value
  allowed : ∀ f ∈ p.fields, ∀ c, f.constraint = some c → c.Allows (f.extract word)

lemma Constraint.admits_iff {c : Constraint} {v : Nat} : c.admits v ↔ c.Allows v := by
  constructor
  · intro h
    cases c with
    | exclude values => exact .exclude (by simpa [admits] using h)
    | only values => exact .only (by simpa [admits] using h)
  · intro h
    cases h with
    | exclude hv => simpa [admits] using hv
    | only hv => simpa [admits] using hv

lemma Field.admits_iff {f : Field} :
    f.admits word ↔ ∀ c, f.constraint = some c → c.Allows (f.extract word) := by
  unfold admits
  cases f.constraint with
  | none => exact iff_of_true rfl nofun
  | some c =>
    constructor
    · intro h c' hc
      cases hc
      exact Constraint.admits_iff.1 h
    · intro h
      exact Constraint.admits_iff.2 (h c rfl)

lemma Pattern.accepts_iff : p.accepts word ↔ p.Describes word := by
  rw [accepts, fixedBitsMatch, Bool.and_eq_true, beq_iff_eq, List.all_eq_true]
  constructor
  · intro ⟨hfixed, hfields⟩
    exact ⟨hfixed, fun f hf => Field.admits_iff.1 (hfields f hf)⟩
  · intro h
    exact ⟨h.fixed, fun f hf => Field.admits_iff.2 (h.allowed f hf)⟩

/-- What is found of a word in a list: the first entry that describes it, with its field values there, or
the error that names it when no entry does. -/
def Table.FoundFirst (es : List (Pattern × α)) (word : UInt32) : Except DecodeError (α × Fields) → Prop
  | .ok (a, fields) => ∃ (i : Nat) (p : Pattern), es[i]? = some (p, a) ∧ p.Describes word ∧ fields = p.extract word ∧
      ∀ j < i, ∀ e ∈ es[j]?, ¬e.1.Describes word
  | .error e => e = .invalidEncoding word ∧ ∀ e ∈ es, ¬e.1.Describes word

lemma Table.find_cons (p : Pattern) (a : α) (rest : List (Pattern × α)) (word : UInt32) :
    find ((p, a) :: rest) word = if p.accepts word then .ok (a, p.extract word) else find rest word := by
  unfold find
  rw [List.find?_cons]
  cases p.accepts word with
  | true => rfl
  | false => rfl

lemma Table.foundFirst_find (es : List (Pattern × α)) (word : UInt32) :
    FoundFirst es word (find es word) := by
  induction es with
  | nil => exact ⟨rfl, nofun⟩
  | cons e rest ih =>
    obtain ⟨p, a⟩ := e
    rw [find_cons]
    split
    · next h => exact ⟨0, p, rfl, Pattern.accepts_iff.1 h, rfl, nofun⟩
    · next h =>
      rw [Pattern.accepts_iff] at h
      -- the entries of the rest stand one place further
      cases hrest : find rest word with
      | ok r =>
        rw [hrest] at ih
        obtain ⟨i, q, hi, hq, hfields, hbefore⟩ := ih
        refine ⟨i + 1, q, hi, hq, hfields, fun j hj e he => ?_⟩
        cases j with
        | zero =>
          cases he
          exact h
        | succ j => exact hbefore j (Nat.lt_of_succ_lt_succ hj) e he
      | error e =>
        rw [hrest] at ih
        refine ⟨ih.1, fun e he => ?_⟩
        cases he with
        | head => exact h
        | tail _ he => exact ih.2 e he

/-- A table finds a word through its bucket as through the whole list, and what it finds is the first entry
that describes the word: entries may overlap, and an entry whose constraints fail gives way to later ones. -/
theorem Table.decode_eq_first (es : List (Pattern × α)) (word : UInt32) :
    (Table.ofList es).decode word = (Table.ofList es).decodeLinear word ∧
      FoundFirst es word ((Table.ofList es).decode word) := by
  rw [decode_ofList]
  exact ⟨rfl, foundFirst_find es word⟩

/-! ### Fixed bits -/

/-- No word has both the fixed bits `value` under `mask` and those of a pattern. -/
def Pattern.Conflicts (p : Pattern) (mask value : UInt32) : Prop :=
  value &&& p.mask ≠ p.value &&& mask

lemma Pattern.Conflicts.not_accepts (h : p.Conflicts mask value) (hword : word &&& mask = value) :
    p.accepts word = false := by
  rw [Bool.eq_false_iff]
  intro haccepts
  simp only [accepts, fixedBitsMatch, Bool.and_eq_true, beq_iff_eq] at haccepts
  apply h
  rw [← hword, ← haccepts.1]
  ac_rfl

/-- When the other entries of a list conflict with the fixed bits of one of them, a word with these bits
is found there if its fields are admitted, and nowhere else. -/
lemma Table.find_of_conflicts {es : List (Pattern × α)} {i : Nat} {a : α}
    (hi : es[i]? = some (p, a))
    (hothers : ∀ j q, j ≠ i → es[j]? = some q → q.1.Conflicts p.mask p.value)
    (hword : word &&& p.mask = p.value) :
    find es word = if p.fields.all (·.admits word) then .ok (a, p.extract word)
      else .error (.invalidEncoding word) := by
  have hself : p.accepts word = p.fields.all (·.admits word) := by
    simp [Pattern.accepts, Pattern.fixedBitsMatch, hword]
  have hnot : ∀ j q, j ≠ i → es[j]? = some q → q.1.accepts word = false :=
    fun j q hj hq => (hothers j q hj hq).not_accepts hword
  rw [find]
  cases hall : p.fields.all (·.admits word) with
  | true =>
    have hfind : es.find? (·.1.accepts word) = some (p, a) := by
      obtain ⟨hlt, hget⟩ := List.getElem?_eq_some_iff.1 hi
      refine List.find?_eq_some_iff_getElem.2 ⟨hself.trans hall, i, hlt, hget, fun j hj => ?_⟩
      rw [hnot j _ (Nat.ne_of_lt hj) (List.getElem?_eq_getElem (Nat.lt_trans hj hlt))]
      rfl
    rw [hfind]
    rfl
  | false =>
    have hfind : es.find? (·.1.accepts word) = none := by
      rw [List.find?_eq_none]
      intro q hq
      obtain ⟨j, hj⟩ := List.mem_iff_getElem?.1 hq
      by_cases hji : j = i
      · subst hji
        obtain rfl := Option.some_inj.1 (hi.symm.trans hj)
        simp [hself, hall]
      · simp [hnot j q hji hj]
    rw [hfind]
    rfl

end Dynarec.Encoding
