import Mathlib.Data.List.Nodup
import Mathlib.Tactic.Common
import Dynarec.Linking.Slots

/-!
# Slots stay consistent

Every address with a slot has its own, which holds its function or stands for it, and the other
slots are the free ones. Asking for a slot, invalidating an address and flushing keep it so, and
asking for a slot changes none that was given.
-/

namespace Dynarec.Linking

variable {F : Type}

namespace FunctionTable

/-- The free list names the vacant slots, each once, and the table has room to double. -/
structure Sound (t : FunctionTable F) : Prop where
  positive : 0 < t.slots.size
  nodup : t.free.Nodup
  free_iff : ∀ slot, slot ∈ t.free ↔ t.get? slot = some .vacant

variable {t : FunctionTable F}

lemma sound_ofSize (size : Nat) : (ofSize size : FunctionTable F).Sound where
  positive := by
    rw [ofSize, Array.size_replicate]
    omega
  nodup := List.nodup_range
  free_iff slot := by
    rw [ofSize, get?, Array.getElem?_replicate, List.mem_range]
    split <;> simp_all

lemma Sound.reset (h : t.Sound) : t.reset.Sound where
  positive := by simpa [FunctionTable.reset] using h.positive
  nodup := List.nodup_range
  free_iff slot := by simp [FunctionTable.reset, get?, Array.getElem?_replicate]

lemma get?_grow (slot : Nat) : t.grow.get? slot =
    if slot < t.slots.size then t.get? slot
    else if slot < 2 * t.slots.size then some .vacant else none := by
  simp only [grow, get?, Array.getElem?_append, Array.getElem?_replicate]
  split
  · rfl
  · congr 1
    exact propext (by omega)

lemma Sound.grow (h : t.Sound) (hfree : t.free = []) : t.grow.Sound where
  positive := by
    rw [FunctionTable.grow, Array.size_append]
    exact Nat.add_pos_left h.positive _
  nodup := List.nodup_range'
  free_iff slot := by
    have hold : t.get? slot ≠ some .vacant := by
      rw [Ne, ← h.free_iff, hfree]
      exact List.not_mem_nil
    rw [get?_grow]
    simp only [FunctionTable.grow, List.mem_range'_1]
    split
    · simp [hold, Nat.not_le.mpr ‹_›]
    · split
      · simp only [iff_true]
        omega
      · simp only [reduceCtorEq, iff_false]
        omega

/-- The table that a slot is handed out of. -/
def room (t : FunctionTable F) : FunctionTable F := if t.free.isEmpty then t.grow else t

lemma Sound.room (h : t.Sound) : t.room.Sound := by
  unfold FunctionTable.room
  split
  · exact h.grow (List.isEmpty_iff.mp ‹_›)
  · exact h

/-- A slot that holds something holds it after growing too, and growing adds vacant slots only. -/
lemma get?_room {slot : Nat} {e : Slot F} (he : e ≠ .vacant) :
    t.room.get? slot = some e ↔ t.get? slot = some e := by
  unfold room
  split
  · rw [get?_grow]
    by_cases hlt : slot < t.slots.size
    · rw [if_pos hlt]
    · have hnone : t.get? slot = none := Array.getElem?_eq_none (Nat.not_lt.mp hlt)
      rw [if_neg hlt, hnone]
      split
      · simpa using he.symm
      · exact Iff.rfl
  · exact Iff.rfl

lemma Sound.room_ne_nil (h : t.Sound) : t.room.free ≠ [] := by
  unfold FunctionTable.room
  split
  · simpa [FunctionTable.grow] using Nat.ne_of_gt h.positive
  · simpa using ‹¬t.free.isEmpty = true›

lemma alloc_eq (t : FunctionTable F) :
    t.alloc = (t.room.free.headD 0, { t.room with free := t.room.free.tail }) := rfl

/-- The slot that is handed out was the first free one. -/
lemma Sound.room_free (h : t.Sound) : t.room.free = t.alloc.1 :: t.alloc.2.free := by
  rw [alloc_eq]
  cases hfree : t.room.free with
  | nil => exact absurd hfree h.room_ne_nil
  | cons slot rest => rfl

lemma get?_set (slot k : Nat) (e : Slot F) : (t.set slot e).get? k =
    if slot = k then (t.get? k).map fun _ => e else t.get? k := by
  simp only [set, get?, Array.getElem?_setIfInBounds]
  split
  · split
    · simp_all
    · rw [Array.getElem?_eq_none (by omega)]
      rfl
  · rfl

/-- A slot in use may be given something else. -/
lemma Sound.set (h : t.Sound) {slot : Nat} {e e' : Slot F} (hget : t.get? slot = some e')
    (he' : e' ≠ .vacant) (he : e ≠ .vacant) : (t.set slot e).Sound := by
  refine ⟨by simpa [FunctionTable.set] using h.positive, h.nodup, fun k => ?_⟩
  rw [get?_set]
  split
  · next heq =>
    subst heq
    rw [hget, Option.map_some]
    show slot ∈ t.free ↔ _
    rw [h.free_iff, hget]
    simp [he', he]
  · exact h.free_iff k

/-- The slot that is handed out is vacant. -/
lemma Sound.vacant_alloc (h : t.Sound) : t.room.get? t.alloc.1 = some .vacant := by
  rw [← h.room.free_iff, h.room_free]
  exact List.mem_cons_self

lemma Sound.get?_alloc_set (h : t.Sound) (e : Slot F) (k : Nat) :
    (t.alloc.2.set t.alloc.1 e).get? k = if t.alloc.1 = k then some e else t.room.get? k := by
  have hsame : t.alloc.2.get? k = t.room.get? k := rfl
  rw [get?_set, hsame]
  split
  · next heq => rw [← heq, h.vacant_alloc, Option.map_some]
  · rfl

/-- A table is sound when the slot that was handed out is in use. -/
lemma Sound.alloc_set (h : t.Sound) {e : Slot F} (he : e ≠ .vacant) :
    (t.alloc.2.set t.alloc.1 e).Sound := by
  have hfree := h.room_free
  have hnodup : t.alloc.1 ∉ t.alloc.2.free ∧ t.alloc.2.free.Nodup := by
    have := h.room.nodup
    rwa [hfree, List.nodup_cons] at this
  refine ⟨by simpa [FunctionTable.set, alloc_eq] using h.room.positive, hnodup.2, fun k => ?_⟩
  show k ∈ t.alloc.2.free ↔ _
  rw [h.get?_alloc_set]
  split
  · next heq =>
    subst heq
    simp [hnodup.1, he]
  · next hne =>
    rw [← h.room.free_iff, hfree, List.mem_cons]
    simp [Ne.symm hne]

end FunctionTable

namespace Slots

open FunctionTable

/-- The cache of slots and the table agree: addresses have slots of their own, which hold or stand
for their functions, every slot in use is that of an address, and the others are free. -/
structure Consistent (s : Slots F) : Prop where
  injective : ∀ (a b : UInt64) (slot : Nat),
    s.ofAddr[a]? = some slot → s.ofAddr[b]? = some slot → a = b
  holds : ∀ (a : UInt64) (slot : Nat), s.ofAddr[a]? = some slot →
    s.table.get? slot = some (.trampoline a) ∨ ∃ f, s.table.get? slot = some (.compiled a f)
  owned : ∀ slot e, s.table.get? slot = some e → e ≠ .vacant →
    ∃ a : UInt64, s.ofAddr[a]? = some slot
  table : s.table.Sound

variable {s : Slots F}

lemma consistent_ofSize (size : Nat) : (ofSize size : Slots F).Consistent where
  injective a b slot h := by simp [ofSize] at h
  holds a slot h := by simp [ofSize] at h
  owned slot e h he := by
    rw [ofSize, get?, FunctionTable.ofSize, Array.getElem?_replicate] at h
    split at h
    · cases h
      exact absurd rfl he
    · cases h
  table := sound_ofSize size

lemma Consistent.flush (h : s.Consistent) : s.flush.Consistent where
  injective a b slot h := by simp [Slots.flush] at h
  holds a slot h := by simp [Slots.flush] at h
  owned slot e h he := by
    rw [Slots.flush, get?, FunctionTable.reset, Array.getElem?_replicate] at h
    split at h
    · cases h
      exact absurd rfl he
    · cases h
  table := h.table.reset

lemma Consistent.exists_get? (h : s.Consistent) {a : UInt64} {slot : Nat}
    (hslot : s.ofAddr[a]? = some slot) : ∃ e, s.table.get? slot = some e := by
  rcases h.holds a slot hslot with he | ⟨f, he⟩ <;> exact ⟨_, he⟩

lemma Consistent.entry_of_compiled (h : s.Consistent) {a b : UInt64} {slot : Nat} {f : F}
    (hslot : s.ofAddr[a]? = some slot) (hf : s.table.get? slot = some (.compiled b f)) : b = a := by
  rcases h.holds a slot hslot with he | ⟨g, he⟩ <;> rw [hf] at he <;> cases he
  rfl

/-- The slot of an address may be given to its function, or to what stands for it. -/
lemma Consistent.set (h : s.Consistent) {a : UInt64} {slot : Nat} (hslot : s.ofAddr[a]? = some slot)
    {e : Slot F} (he : e = .trampoline a ∨ ∃ f, e = .compiled a f) :
    ({ s with table := s.table.set slot e } : Slots F).Consistent := by
  have hused : ∃ e', s.table.get? slot = some e' ∧ e' ≠ .vacant := by
    rcases h.holds a slot hslot with he' | ⟨f, he'⟩
    · exact ⟨_, he', nofun⟩
    · exact ⟨_, he', nofun⟩
  obtain ⟨e', hget, he'⟩ := hused
  have hvacant : e ≠ .vacant := by
    rintro rfl
    rcases he with he | ⟨f, he⟩ <;> cases he
  refine ⟨h.injective, ?_, ?_, h.table.set hget he' hvacant⟩
  · intro b k hk
    rw [get?_set]
    split
    · next heq =>
      subst heq
      obtain rfl := h.injective _ _ _ hslot hk
      rw [hget, Option.map_some]
      rcases he with rfl | ⟨f, rfl⟩
      · exact .inl rfl
      · exact .inr ⟨f, rfl⟩
    · exact h.holds b k hk
  · intro k e'' hk he''
    rw [get?_set] at hk
    split at hk
    · next heq => exact ⟨a, heq ▸ hslot⟩
    · exact h.owned k e'' hk he''

lemma Consistent.invalidate (h : s.Consistent) (a : UInt64) : (s.invalidate a).2.Consistent := by
  unfold Slots.invalidate
  split
  · exact h.set ‹_› (.inl rfl)
  · exact h

/-- Asking for the slot of an address gives the one it has, or a slot that stands for it from then
on. -/
lemma functionSlot_some {a : UInt64} {slot : Nat} (h : s.ofAddr[a]? = some slot) :
    s.functionSlot a = (slot, s) := by
  rw [functionSlot, h]

lemma functionSlot_none {a : UInt64} (h : s.ofAddr[a]? = none) :
    s.functionSlot a = (s.table.alloc.1, ⟨s.ofAddr.insert a s.table.alloc.1,
      s.table.alloc.2.set s.table.alloc.1 (.trampoline a), s.trampolines + 1⟩) := by
  rw [functionSlot, h]

lemma ofAddr_functionSlot (s : Slots F) (a : UInt64) :
    (s.functionSlot a).2.ofAddr[a]? = some (s.functionSlot a).1 := by
  cases h : s.ofAddr[a]? with
  | none => rw [functionSlot_none h, Std.HashMap.getElem?_insert_self]
  | some slot => rw [functionSlot_some h, h]

/-- Addresses keep their slots. -/
lemma ofAddr_functionSlot_of_some {a b : UInt64} {slot : Nat} (h : s.ofAddr[b]? = some slot) :
    (s.functionSlot a).2.ofAddr[b]? = some slot := by
  cases ha : s.ofAddr[a]? with
  | none =>
    have hne : a ≠ b := fun heq => by rw [heq, h] at ha; cases ha
    rw [functionSlot_none ha, Std.HashMap.getElem?_insert]
    simpa [hne] using h
  | some k => rwa [functionSlot_some ha]

/-- Slots in use keep what they hold. -/
lemma Consistent.get?_functionSlot (h : s.Consistent) {a : UInt64} {k : Nat} {e : Slot F}
    (he : e ≠ .vacant) (hk : s.table.get? k = some e) :
    (s.functionSlot a).2.table.get? k = some e := by
  cases ha : s.ofAddr[a]? with
  | some slot => rwa [functionSlot_some ha]
  | none =>
    rw [functionSlot_none ha]
    have hroom : s.table.room.get? k = some e := (get?_room he).mpr hk
    have hne : s.table.alloc.1 ≠ k := by
      rintro rfl
      exact he (Option.some.inj (hroom.symm.trans h.table.vacant_alloc))
    rw [h.table.get?_alloc_set, if_neg hne]
    exact hroom

/-- The slot that is handed out is that of no address. -/
lemma Consistent.ne_alloc (h : s.Consistent) (b : UInt64) :
    s.ofAddr[b]? ≠ some s.table.alloc.1 := by
  intro hb
  have hvacant : ∀ e, s.table.get? s.table.alloc.1 = some e → e = .vacant := fun e he => by
    by_contra hne
    have := h.table.vacant_alloc
    rw [(get?_room hne).mpr he] at this
    exact hne (Option.some.inj this)
  rcases h.holds b _ hb with he | ⟨f, he⟩ <;> cases hvacant _ he

lemma Consistent.functionSlot (h : s.Consistent) (a : UInt64) :
    (s.functionSlot a).2.Consistent := by
  cases ha : s.ofAddr[a]? with
  | some slot => rwa [functionSlot_some ha]
  | none =>
    have hget := h.table.get?_alloc_set (.trampoline a)
    have hnew := h.ne_alloc
    have htable := h.table.alloc_set (e := .trampoline a) nofun
    rw [functionSlot_none ha]
    generalize s.table.alloc.1 = slot at *
    refine ⟨?_, ?_, ?_, htable⟩
    · intro b c k hb hc
      simp only [Std.HashMap.getElem?_insert, beq_iff_eq] at hb hc
      split at hb <;> split at hc
      · next h₁ h₂ => exact h₁.symm.trans h₂
      · cases hb
        exact absurd hc (hnew c)
      · cases hc
        exact absurd hb (hnew b)
      · exact h.injective b c k hb hc
    · intro b k hb
      simp only [Std.HashMap.getElem?_insert, beq_iff_eq] at hb
      simp only [hget]
      split at hb
      · next heq =>
        cases hb
        rw [if_pos rfl, heq]
        exact .inl rfl
      · have hne : slot ≠ k := fun heq => hnew b (heq ▸ hb)
        rw [if_neg hne]
        rcases h.holds b k hb with he | ⟨f, he⟩
        · exact .inl ((get?_room (by simp)).mpr he)
        · exact .inr ⟨f, (get?_room (by simp)).mpr he⟩
    · intro k e hk he
      simp only [hget] at hk
      split at hk
      · next heq => exact ⟨a, by rw [Std.HashMap.getElem?_insert_self, heq]⟩
      · obtain ⟨b, hb⟩ := h.owned k e ((get?_room he).mp hk) he
        have hne : a ≠ b := fun heq => by rw [heq, hb] at ha; cases ha
        exact ⟨b, by simpa [Std.HashMap.getElem?_insert, hne] using hb⟩

/-! ### Several addresses -/

/-- The slots after asking for those of some addresses, in order. -/
def ask (s : Slots F) (asked : List UInt64) : Slots F :=
  asked.foldl (fun s a => (s.functionSlot a).2) s

/-- The slot of the address that a number stands for; zero when it has none. -/
def slotOf (s : Slots F) (n : Nat) : Nat := (s.ofAddr[UInt64.ofNat n]?).getD 0

lemma ask_append (s : Slots F) (first rest : List UInt64) :
    s.ask (first ++ rest) = (s.ask first).ask rest := List.foldl_append

lemma Consistent.ask (h : s.Consistent) (asked : List UInt64) : (s.ask asked).Consistent := by
  induction asked generalizing s with
  | nil => exact h
  | cons a rest ih => exact ih (h.functionSlot a)

lemma ofAddr_ask_of_some {b : UInt64} {slot : Nat} (h : s.ofAddr[b]? = some slot)
    (asked : List UInt64) : (s.ask asked).ofAddr[b]? = some slot := by
  induction asked generalizing s with
  | nil => exact h
  | cons a rest ih => exact ih (ofAddr_functionSlot_of_some h)

lemma Consistent.get?_ask (h : s.Consistent) {k : Nat} {e : Slot F} (he : e ≠ .vacant)
    (hk : s.table.get? k = some e) (asked : List UInt64) :
    (s.ask asked).table.get? k = some e := by
  induction asked generalizing s with
  | nil => exact hk
  | cons a rest ih => exact ih (h.functionSlot a) (h.get?_functionSlot he hk)

/-- An address that was asked for has a slot. -/
lemma exists_ofAddr_ask {b : UInt64} {asked : List UInt64} (h : b ∈ asked) :
    ∃ slot, (s.ask asked).ofAddr[b]? = some slot := by
  induction asked generalizing s with
  | nil => cases h
  | cons a rest ih =>
    cases h with
    | head => exact ⟨_, ofAddr_ask_of_some (ofAddr_functionSlot s b) rest⟩
    | tail _ h => exact ih h

/-- Asking gives no slot that holds a compiled function. -/
lemma compiled_of_functionSlot {a b : UInt64} {k : Nat} {f : F}
    (h : (s.functionSlot a).2.table.get? k = some (.compiled b f)) :
    s.table.get? k = some (.compiled b f) := by
  cases ha : s.ofAddr[a]? with
  | some slot => rwa [functionSlot_some ha] at h
  | none =>
    rw [functionSlot_none ha, get?_set] at h
    split at h
    · cases hk : s.table.alloc.2.get? k <;> rw [hk] at h <;> cases h
    · exact (get?_room (by simp)).mp h

lemma compiled_of_ask {b : UInt64} {k : Nat} {f : F} {asked : List UInt64}
    (h : (s.ask asked).table.get? k = some (.compiled b f)) :
    s.table.get? k = some (.compiled b f) := by
  induction asked generalizing s with
  | nil => exact h
  | cons a rest ih => exact compiled_of_functionSlot (ih h)

/-- Asking for addresses that have slots changes nothing. -/
lemma ask_of_forall {asked : List UInt64} (h : ∀ a ∈ asked, ∃ slot, s.ofAddr[a]? = some slot) :
    s.ask asked = s := by
  induction asked with
  | nil => rfl
  | cons a rest ih =>
    obtain ⟨slot, ha⟩ := h a List.mem_cons_self
    have hrest := ih fun b hb => h b (List.mem_cons_of_mem _ hb)
    rw [ask, List.foldl_cons, functionSlot_some ha]
    exact hrest

/-- Every address that has a slot keeps it. -/
def Extends (s s' : Slots F) : Prop :=
  ∀ (a : UInt64) (slot : Nat), s.ofAddr[a]? = some slot → s'.ofAddr[a]? = some slot

lemma Extends.refl (s : Slots F) : s.Extends s := fun _ _ h => h

lemma Extends.trans {s s' s'' : Slots F} (h : s.Extends s') (h' : s'.Extends s'') :
    s.Extends s'' := fun a slot ha => h' a slot (h a slot ha)

lemma extends_ask (s : Slots F) (asked : List UInt64) : s.Extends (s.ask asked) :=
  fun _ _ h => ofAddr_ask_of_some h asked

/-- Asking for further addresses moves no slot. -/
lemma slotOf_ask {b : UInt64} {slot : Nat} (h : s.ofAddr[b]? = some slot) (asked : List UInt64) :
    (s.ask asked).slotOf b.toNat = s.slotOf b.toNat := by
  rw [slotOf, slotOf, UInt64.ofNat_toNat, ofAddr_ask_of_some h, h]

end Slots

end Dynarec.Linking
