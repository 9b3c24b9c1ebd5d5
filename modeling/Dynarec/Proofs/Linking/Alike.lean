import Dynarec.Proofs.Linking.Slots

/-!
# Tables of different sizes

Slots are handed out in order, lowest number first, however often the table has to be doubled for it.
So the size that a table starts with does not show in the numbers of slots: two tables from which
slots have been asked for the same addresses have given the same numbers.
-/

namespace Dynarec.Linking

variable {F F' : Type} {P : F → F' → Prop}

/-- What two tables hold in the slot of one number: the same, up to related functions, or nothing. -/
inductive Slot.Alike (P : F → F' → Prop) : Option (Slot F) → Option (Slot F') → Prop where
  | trampoline (entry : UInt64) :
    Slot.Alike P (some (.trampoline entry)) (some (.trampoline entry))
  | compiled (entry : UInt64) {f : F} {f' : F'} : P f f' →
    Slot.Alike P (some (.compiled entry f)) (some (.compiled entry f'))
  | unused {o : Option (Slot F)} {o' : Option (Slot F')} : (∀ e, o = some e → e = .vacant) →
    (∀ e, o' = some e → e = .vacant) → Slot.Alike P o o'

/-- What is alike stays so where nothing but vacant slots comes in or goes. -/
lemma Slot.Alike.of_same {o o₁ : Option (Slot F)} {o' o₁' : Option (Slot F')}
    (h : Slot.Alike P o o') (hsame : ∀ e, e ≠ .vacant → (o₁ = some e ↔ o = some e))
    (hsame' : ∀ e, e ≠ .vacant → (o₁' = some e ↔ o' = some e)) : Slot.Alike P o₁ o₁' := by
  cases h with
  | trampoline a =>
    rw [(hsame (.trampoline a) (by simp)).2 rfl, (hsame' (.trampoline a) (by simp)).2 rfl]
    exact .trampoline a
  | @compiled a f f' hf =>
    rw [(hsame (.compiled a f) (by simp)).2 rfl, (hsame' (.compiled a f') (by simp)).2 rfl]
    exact .compiled a hf
  | unused ho ho' =>
    refine .unused (fun e he => ?_) (fun e he => ?_)
    · by_contra hne
      exact hne (ho e ((hsame e hne).1 he))
    · by_contra hne
      exact hne (ho' e ((hsame' e hne).1 he))

namespace FunctionTable

variable {t : FunctionTable F} {n : Nat}

/-- A table of which the first slots have been handed out. -/
structure Filled (n : Nat) (t : FunctionTable F) : Prop where
  positive : 0 < t.slots.size
  le : n ≤ t.slots.size
  free : t.free = List.range' n (t.slots.size - n)
  vacant : ∀ k, n ≤ k → ∀ e, t.get? k = some e → e = .vacant

lemma filled_ofSize (size : Nat) : (ofSize size : FunctionTable F).Filled 0 where
  positive := by
    rw [ofSize, Array.size_replicate]
    omega
  le := Nat.zero_le _
  free := by
    rw [ofSize, Array.size_replicate, Nat.sub_zero]
    exact List.range_eq_range'
  vacant k _ e h := by
    rw [ofSize, get?, Array.getElem?_replicate] at h
    split at h
    · cases h
      rfl
    · cases h

/-- A table from which a slot can be handed out is as filled as it was. -/
lemma Filled.room (h : t.Filled n) : t.room.Filled n ∧ n < t.room.slots.size := by
  unfold FunctionTable.room
  have hempty : t.free.isEmpty = true ↔ n = t.slots.size := by
    have := h.le
    rw [List.isEmpty_iff, h.free, List.range'_eq_nil_iff]
    omega
  by_cases hn : n = t.slots.size
  · -- the table is doubled, so its second half is free
    subst hn
    rw [if_pos (hempty.2 rfl)]
    have hsize : t.grow.slots.size = t.slots.size + t.slots.size := by simp [FunctionTable.grow]
    have hpositive := h.positive
    refine ⟨⟨by omega, by omega, ?_, fun k hk e hget => ?_⟩, by omega⟩
    · rw [hsize, Nat.add_sub_cancel]
      rfl
    · rw [get?_grow, if_neg (Nat.not_lt_of_le hk)] at hget
      split at hget
      · cases hget
        rfl
      · cases hget
  · rw [if_neg fun hc => hn (hempty.1 hc)]
    exact ⟨h, Nat.lt_of_le_of_ne h.le hn⟩

/-- The next slot is handed out. -/
lemma Filled.alloc (h : t.Filled n) (e : Slot F) :
    t.alloc.1 = n ∧ (t.alloc.2.set n e).Filled (n + 1) ∧
      ∀ k, (t.alloc.2.set n e).get? k = if n = k then some e else t.room.get? k := by
  obtain ⟨hroom, hlt⟩ := h.room
  have hfree : t.room.free = n :: List.range' (n + 1) (t.room.slots.size - (n + 1)) := by
    rw [hroom.free, ← List.range'_succ]
    congr 1
    omega
  have hget : ∀ k, (t.alloc.2.set n e).get? k = if n = k then some e else t.room.get? k := by
    intro k
    have hsame : t.alloc.2.get? k = t.room.get? k := rfl
    rw [get?_set, hsame]
    split
    · next heq =>
      subst heq
      rw [get?, Array.getElem?_eq_getElem hlt]
      rfl
    · rfl
  have hsize : (t.alloc.2.set n e).slots.size = t.room.slots.size := by
    simp [alloc_eq, FunctionTable.set]
  refine ⟨by rw [alloc_eq, hfree]; rfl, ⟨?_, ?_, ?_, fun k hk e' he' => ?_⟩, hget⟩
  · rw [hsize]
    exact hroom.positive
  · rw [hsize]
    exact hlt
  · rw [hsize]
    show t.room.free.tail = _
    rw [hfree]
    rfl
  · rw [hget, if_neg (by omega)] at he'
    exact hroom.vacant k (by omega) e' he'

/-- Replacing a slot that has been handed out leaves the others as they are. -/
lemma Filled.set (h : t.Filled n) {slot : Nat} (hslot : slot < n) (e : Slot F) :
    (t.set slot e).Filled n where
  positive := by simpa [FunctionTable.set] using h.positive
  le := by simpa [FunctionTable.set] using h.le
  free := by simpa [FunctionTable.set] using h.free
  vacant k hk e' he' := by
    rw [get?_set, if_neg (by omega)] at he'
    exact h.vacant k hk e' he'

lemma Filled.get?_set (h : t.Filled n) {slot : Nat} (hslot : slot < n) (e : Slot F) (k : Nat) :
    (t.set slot e).get? k = if slot = k then some e else t.get? k := by
  rw [FunctionTable.get?_set]
  split
  · next heq =>
    subst heq
    rw [get?, Array.getElem?_eq_getElem (Nat.lt_of_lt_of_le hslot h.le)]
    rfl
  · rfl

end FunctionTable

namespace Slots

variable {s : Slots F} {s' : Slots F'}

/-- Slots that have been given to the same addresses from tables of any sizes. -/
structure Alike (P : F → F' → Prop) (s : Slots F) (s' : Slots F') : Prop where
  ofAddr : s'.ofAddr = s.ofAddr
  filled : ∃ n, s.table.Filled n ∧ s'.table.Filled n ∧
    ∀ (a : UInt64) (slot : Nat), s.ofAddr[a]? = some slot → slot < n
  slots : ∀ k, Slot.Alike P (s.table.get? k) (s'.table.get? k)

lemma alike_ofSize (size size' : Nat) : Alike P (ofSize size) (ofSize size') where
  ofAddr := rfl
  filled := ⟨0, FunctionTable.filled_ofSize size, FunctionTable.filled_ofSize size', fun a slot h => by
    simp [ofSize] at h⟩
  slots k := .unused ((FunctionTable.filled_ofSize size).vacant k (Nat.zero_le k))
    ((FunctionTable.filled_ofSize size').vacant k (Nat.zero_le k))

namespace Alike

variable (h : Alike P s s')
include h

lemma slotOf : s'.slotOf = s.slotOf := by
  funext n
  rw [Slots.slotOf, Slots.slotOf, h.ofAddr]

/-- Making room in the tables changes nothing of what they hold. -/
lemma room (k : Nat) : Slot.Alike P (s.table.room.get? k) (s'.table.room.get? k) :=
  (h.slots k).of_same (fun _ => FunctionTable.get?_room) (fun _ => FunctionTable.get?_room)

/-- An address gets the same slot in both. -/
lemma functionSlot (a : UInt64) : (s'.functionSlot a).1 = (s.functionSlot a).1 ∧
    Alike P (s.functionSlot a).2 (s'.functionSlot a).2 := by
  cases ha : s.ofAddr[a]? with
  | some slot =>
    have ha' : s'.ofAddr[a]? = some slot := by rw [h.ofAddr, ha]
    rw [functionSlot_some ha, functionSlot_some ha']
    exact ⟨rfl, h⟩
  | none =>
    have ha' : s'.ofAddr[a]? = none := by rw [h.ofAddr, ha]
    obtain ⟨n, hfilled, hfilled', hlt⟩ := h.filled
    obtain ⟨hslot, hnext, hget⟩ := hfilled.alloc (.trampoline a)
    obtain ⟨hslot', hnext', hget'⟩ := hfilled'.alloc (.trampoline a)
    rw [functionSlot_none ha, functionSlot_none ha', hslot, hslot']
    refine ⟨rfl, congrArg (·.insert a n) h.ofAddr, ⟨n + 1, hnext, hnext', fun b slot hb => ?_⟩,
      fun k => ?_⟩
    · rw [Std.HashMap.getElem?_insert] at hb
      split at hb
      · cases hb
        exact Nat.lt_succ_self n
      · exact Nat.lt_succ_of_lt (hlt b slot hb)
    · rw [hget, hget']
      split
      · exact .trampoline a
      · exact h.room k

omit h in
/-- So do several addresses, one after the other. -/
lemma ask (h : Alike P s s') (asked : List UInt64) : Alike P (s.ask asked) (s'.ask asked) := by
  induction asked generalizing s s' with
  | nil => exact h
  | cons a rest ih => exact ih (h.functionSlot a).2

/-- Related functions are put into the slot of an address. -/
lemma set {a : UInt64} {slot : Nat} (hslot : s.ofAddr[a]? = some slot) (b : UInt64) {f : F} {f' : F'}
    (hf : P f f') : Alike P { s with table := s.table.set slot (.compiled b f) }
      { s' with table := s'.table.set slot (.compiled b f') } := by
  obtain ⟨n, hfilled, hfilled', hlt⟩ := h.filled
  have hslot := hlt a slot hslot
  refine ⟨h.ofAddr, ⟨n, hfilled.set hslot _, hfilled'.set hslot _, hlt⟩, fun k => ?_⟩
  rw [hfilled.get?_set hslot, hfilled'.get?_set hslot]
  split
  · exact .compiled b hf
  · exact h.slots k

end Alike

end Slots

end Dynarec.Linking
