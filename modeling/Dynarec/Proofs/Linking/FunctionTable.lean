import Mathlib.Algebra.Group.Nat.Defs
import Mathlib.Data.List.DropRight
import Mathlib.Order.Bounds.Defs
import Dynarec.Proofs.Linking.Slots

/-!
# Slots are handed out densely

Since it was made or last reset, the function table has handed out the slots from zero on, one after
the other. It has as many slots as it had at first, doubled until they were enough for the most that
were in use at one time, and a slot holds what was put into it last since then, or nothing.
`Dense` says so of a table after some calls; every call keeps it.
-/

namespace Dynarec.Linking.FunctionTable

variable {F : Type} {t : FunctionTable F} {size slot i : Nat}

/-! ### Calls -/

/-- A call that hands out a slot, replaces one or makes all of them free. -/
inductive Call (F : Type) where
  | alloc
  | set (slot : Nat) (entry : Slot F)
  | reset

namespace Call

/-- A call hands out a slot. -/
def isAlloc : Call F → Bool
  | .alloc => true
  | _ => false

/-- A call makes every slot free. -/
def isReset : Call F → Bool
  | .reset => true
  | _ => false

/-- What a call puts into a slot. -/
def given (i : Nat) : Call F → Option (Slot F)
  | .set slot entry => if slot = i then some entry else none
  | _ => none

/-- A slot that a call replaces exists. -/
def Fits (t : FunctionTable F) : Call F → Prop
  | .set slot _ => slot < t.capacity
  | _ => True

instance (t : FunctionTable F) : (call : Call F) → Decidable (call.Fits t)
  | .set slot _ => inferInstanceAs (Decidable (slot < t.capacity))
  | .alloc | .reset => inferInstanceAs (Decidable True)

end Call

/-- The table after a call. -/
def step (t : FunctionTable F) : Call F → FunctionTable F
  | .alloc => t.alloc.2
  | .set slot entry => t.set slot entry
  | .reset => t.reset

/-- The table after calls that start with a table of a size. -/
def run (size : Nat) (calls : List (Call F)) : FunctionTable F := calls.foldl step (ofSize size)

/-- Every slot that one of the calls replaces exists at that time. -/
def Proper (t : FunctionTable F) : List (Call F) → Prop
  | [] => True
  | call :: rest => call.Fits t ∧ Proper (t.step call) rest

instance decidableProper (t : FunctionTable F) : (calls : List (Call F)) → Decidable (t.Proper calls)
  | [] => inferInstanceAs (Decidable True)
  | call :: rest =>
    have := decidableProper (t.step call) rest
    inferInstanceAs (Decidable (call.Fits t ∧ (t.step call).Proper rest))

/-- The calls since the last one that made every slot free. -/
def recent (calls : List (Call F)) : List (Call F) := calls.rtakeWhile (!·.isReset)

/-- Number of slots that are in use. -/
def inUse (calls : List (Call F)) : Nat := (recent calls).countP Call.isAlloc

/-- What was put into a slot last since every slot was free. -/
def lastGiven (i : Nat) (calls : List (Call F)) : Option (Slot F) :=
  ((recent calls).filterMap (Call.given i)).getLast?

/-- A number of slots is enough for all that were in use at one time. -/
def Enough (calls : List (Call F)) (n : Nat) : Prop := ∀ first, first <+: calls → inUse first ≤ n

section

variable {calls : List (Call F)}

lemma run_concat (size : Nat) (calls : List (Call F)) (call : Call F) :
    run size (calls ++ [call]) = (run size calls).step call := by
  simp only [run, List.foldl_append, List.foldl_cons, List.foldl_nil]

lemma recent_concat (calls : List (Call F)) (call : Call F) :
    recent (calls ++ [call]) = if call.isReset then [] else recent calls ++ [call] := by
  rw [recent, List.rtakeWhile_concat]
  cases call.isReset <;> rfl

lemma inUse_concat (calls : List (Call F)) (call : Call F) : inUse (calls ++ [call]) =
    if call.isReset then 0 else inUse calls + if call.isAlloc then 1 else 0 := by
  rw [inUse, recent_concat]
  split
  · rfl
  · rw [List.countP_append, List.countP_singleton, inUse]

lemma lastGiven_concat (i : Nat) (calls : List (Call F)) (call : Call F) :
    lastGiven i (calls ++ [call]) =
      if call.isReset then none else (call.given i).or (lastGiven i calls) := by
  rw [lastGiven, recent_concat]
  split
  · rfl
  · rw [List.filterMap_append, List.getLast?_append, lastGiven]
    cases hgiven : call.given i <;> simp [hgiven]

/-- The calls before one more call are those before it, or all of them. -/
lemma enough_concat (calls : List (Call F)) (call : Call F) (n : Nat) :
    Enough (calls ++ [call]) n ↔ Enough calls n ∧ inUse (calls ++ [call]) ≤ n := by
  constructor
  · exact fun h => ⟨fun first hf => h first (hf.trans (List.prefix_append _ _)),
      h _ (List.prefix_refl _)⟩
  · rintro ⟨h, hlast⟩ first hf
    rcases List.prefix_concat_iff.1 hf with rfl | hf
    · exact hlast
    · exact h first hf

lemma Enough.inUse_le {n : Nat} (h : Enough calls n) : inUse calls ≤ n :=
  h calls (List.prefix_refl _)

lemma Proper.of_concat {call : Call F} (h : t.Proper (calls ++ [call])) :
    t.Proper calls ∧ call.Fits (calls.foldl step t) := by
  induction calls generalizing t with
  | nil => exact ⟨trivial, h.1⟩
  | cons first rest ih =>
    obtain ⟨hrest, hcall⟩ := ih h.2
    exact ⟨⟨h.1, hrest⟩, hcall⟩

end

/-! ### Single calls -/

lemma room_of_nil (h : t.free = []) : t.room = t.grow := if_pos (List.isEmpty_iff.2 h)

lemma room_of_ne_nil (h : t.free ≠ []) : t.room = t := if_neg (mt List.isEmpty_iff.1 h)

lemma capacity_grow (t : FunctionTable F) : t.grow.capacity = 2 * t.capacity := by
  rw [capacity, grow, Array.size_append, Array.size_replicate, capacity, Nat.two_mul]

lemma capacity_set (t : FunctionTable F) (slot : Nat) (entry : Slot F) :
    (t.set slot entry).capacity = t.capacity := Array.size_setIfInBounds

lemma capacity_reset (t : FunctionTable F) : t.reset.capacity = t.capacity := Array.size_replicate

lemma capacity_alloc (t : FunctionTable F) : t.alloc.2.capacity = t.room.capacity := rfl

lemma capacity_le_alloc (t : FunctionTable F) : t.capacity ≤ t.alloc.2.capacity := by
  rw [capacity_alloc]
  by_cases hfree : t.free = []
  · rw [room_of_nil hfree, capacity_grow]
    omega
  · rw [room_of_ne_nil hfree]

/-- A table never loses slots. -/
lemma capacity_le_step (t : FunctionTable F) (call : Call F) :
    t.capacity ≤ (t.step call).capacity := by
  cases call with
  | alloc => exact t.capacity_le_alloc
  | set slot entry => exact (t.capacity_set slot entry).ge
  | reset => exact t.capacity_reset.ge

lemma capacity_le_foldl (t : FunctionTable F) (calls : List (Call F)) :
    t.capacity ≤ (calls.foldl step t).capacity := by
  induction calls generalizing t with
  | nil => exact le_rfl
  | cons call calls ih => exact (t.capacity_le_step call).trans (ih (t.step call))

/-- Handing out a slot changes none that the table had, and what it adds is vacant. -/
lemma get?_alloc (t : FunctionTable F) (i : Nat) : t.alloc.2.get? i =
    if i < t.capacity then t.get? i
    else if i < t.alloc.2.capacity then some .vacant else none := by
  change t.room.get? i = if i < t.capacity then _ else if i < t.room.capacity then _ else _
  by_cases hfree : t.free = []
  · rw [room_of_nil hfree, capacity_grow]
    exact get?_grow i
  · rw [room_of_ne_nil hfree]
    split
    · rfl
    · next h => exact Array.getElem?_eq_none (Nat.le_of_not_lt h)

lemma get?_reset (t : FunctionTable F) (i : Nat) :
    t.reset.get? i = if i < t.capacity then some .vacant else none :=
  Array.getElem?_replicate

/-! ### Any calls -/

/-- What holds of a table after calls. -/
structure Dense (size : Nat) (calls : List (Call F)) (t : FunctionTable F) : Prop where
  free : t.free = List.range' (inUse calls) (t.capacity - inUse calls)
  doubled : ∃ j, t.capacity = max size 1 * 2 ^ j ∧
    IsLeast {j | Enough calls (max size 1 * 2 ^ j)} j
  holds : ∀ i < t.capacity, t.get? i = some ((lastGiven i calls).getD .vacant)
  untouched : ∀ i, t.capacity ≤ i → lastGiven i calls = none

section

variable {calls : List (Call F)}

lemma Dense.capacity_pos (h : Dense size calls t) : 0 < t.capacity := by
  obtain ⟨j, hj, -⟩ := h.doubled
  have : 0 < 2 ^ j := Nat.two_pow_pos j
  rw [hj]
  exact Nat.mul_pos (by omega) this

lemma Dense.inUse_le (h : Dense size calls t) : inUse calls ≤ t.capacity := by
  obtain ⟨j, hj, hleast⟩ := h.doubled
  rw [hj]
  exact Enough.inUse_le hleast.1

lemma Dense.free_eq_nil (h : Dense size calls t) : t.free = [] ↔ inUse calls = t.capacity := by
  have := h.inUse_le
  rw [h.free, List.range'_eq_nil_iff]
  omega

lemma dense_nil (size : Nat) : Dense size [] (ofSize size : FunctionTable F) where
  free := List.range_eq_range'.trans (by simp [inUse, recent, capacity, ofSize])
  doubled := by
    refine ⟨0, by simp [capacity, ofSize], fun first hf => ?_, fun j _ => Nat.zero_le j⟩
    rw [List.prefix_nil.1 hf]
    exact Nat.zero_le _
  holds i hi := by
    rw [capacity, ofSize, Array.size_replicate] at hi
    simp [get?, ofSize, hi, lastGiven, recent]
  untouched i _ := rfl

/-- The slot that is handed out is the number of those in use, and the table has doubled if all
were. -/
lemma Dense.alloc_eq (h : Dense size calls t) : t.alloc.1 = inUse calls ∧
    inUse calls < t.alloc.2.capacity ∧
    t.alloc.2.free = List.range' (inUse calls + 1) (t.alloc.2.capacity - (inUse calls + 1)) := by
  have hpos := h.capacity_pos
  have hle := h.inUse_le
  -- the table that the slot is taken from has free slots from the number of those in use on
  have hroom : t.room.free = List.range' (inUse calls) (t.room.capacity - inUse calls) ∧
      inUse calls < t.room.capacity := by
    by_cases hfree : t.free = []
    · have heq := h.free_eq_nil.1 hfree
      rw [room_of_nil hfree, capacity_grow]
      refine ⟨?_, by omega⟩
      rw [show 2 * t.capacity - inUse calls = t.capacity by omega, heq]
      rfl
    · rw [room_of_ne_nil hfree]
      exact ⟨h.free, Nat.lt_of_le_of_ne hle (mt h.free_eq_nil.2 hfree)⟩
  obtain ⟨hfree, hlt⟩ := hroom
  obtain ⟨n, hn⟩ : ∃ n, t.room.capacity - inUse calls = n + 1 :=
    ⟨_, (Nat.sub_add_cancel (by omega)).symm⟩
  rw [hn, List.range'_succ] at hfree
  rw [FunctionTable.alloc_eq, capacity]
  dsimp only
  rw [hfree]
  refine ⟨rfl, hlt, ?_⟩
  change List.range' _ n = List.range' _ (t.room.capacity - _)
  congr 1
  omega

/-- Slots keep sufficing if no more are in use. -/
lemma Dense.doubled_concat (h : Dense size calls t) {call : Call F}
    (hcall : inUse (calls ++ [call]) ≤ t.capacity) : ∃ j, t.capacity = max size 1 * 2 ^ j ∧
      IsLeast {j | Enough (calls ++ [call]) (max size 1 * 2 ^ j)} j := by
  obtain ⟨j, hj, hleast⟩ := h.doubled
  refine ⟨j, hj, (enough_concat _ _ _).2 ⟨hleast.1, hj ▸ hcall⟩, fun i hi => hleast.2 ?_⟩
  exact ((enough_concat _ _ _).1 hi).1

lemma Dense.alloc (h : Dense size calls t) : Dense size (calls ++ [.alloc]) t.alloc.2 := by
  obtain ⟨-, hlt, hfree⟩ := h.alloc_eq
  have huse : inUse (calls ++ [.alloc]) = inUse calls + 1 := inUse_concat _ _
  have hgiven : ∀ i, lastGiven i (calls ++ [.alloc]) = lastGiven i calls := fun i =>
    lastGiven_concat i calls .alloc
  refine ⟨?_, ?_, fun i hi => ?_, fun i hi => ?_⟩
  · rw [hfree, huse]
  · by_cases hfull : t.free = []
    · -- all slots were in use, so as many as before are not enough any more
      have heq := h.free_eq_nil.1 hfull
      have hpos := h.capacity_pos
      obtain ⟨j, hj, hleast⟩ := h.doubled
      have hdouble : t.alloc.2.capacity = 2 * t.capacity := by
        rw [capacity_alloc, room_of_nil hfull, capacity_grow]
      have hsucc : max size 1 * 2 ^ (j + 1) = 2 * t.capacity := by
        rw [Nat.pow_succ, ← Nat.mul_assoc, ← hj, Nat.mul_comm]
      refine ⟨j + 1, hdouble.trans hsucc.symm, (enough_concat _ _ _).2 ⟨fun first hf => ?_, ?_⟩,
        fun i hi => ?_⟩
      · have := hleast.1 first hf
        omega
      · omega
      · have hi := (enough_concat _ _ _).1 hi
        have hij : j ≤ i := hleast.2 hi.1
        rcases Nat.lt_or_eq_of_le hij with hij | rfl
        · exact hij
        · omega
    · have heq : t.alloc.2.capacity = t.capacity := by rw [capacity_alloc, room_of_ne_nil hfull]
      rw [heq] at hlt ⊢
      exact h.doubled_concat (by omega)
  · rw [hgiven, get?_alloc]
    split
    · next hold => exact h.holds i hold
    · next hnew =>
      rw [h.untouched i (Nat.le_of_not_lt hnew)]
      rfl
  · rw [hgiven]
    exact h.untouched i (t.capacity_le_alloc.trans hi)

lemma Dense.set (h : Dense size calls t) {entry : Slot F} (hslot : slot < t.capacity) :
    Dense size (calls ++ [.set slot entry]) (t.set slot entry) := by
  have huse : inUse (calls ++ [.set slot entry]) = inUse calls := inUse_concat _ _
  have hgiven : ∀ i, lastGiven i (calls ++ [.set slot entry]) =
      if slot = i then some entry else lastGiven i calls := by
    intro i
    rw [lastGiven_concat]
    by_cases hi : slot = i <;> simp [Call.isReset, Call.given, hi]
  refine ⟨?_, ?_, fun i hi => ?_, fun i hi => ?_⟩
  · rw [huse, capacity_set]
    exact h.free
  · rw [capacity_set]
    exact h.doubled_concat (huse ▸ h.inUse_le)
  · rw [capacity_set] at hi
    rw [hgiven, get?_set, h.holds i hi]
    split <;> rfl
  · rw [capacity_set] at hi
    rw [hgiven, if_neg (by omega), h.untouched i hi]

lemma Dense.reset (h : Dense size calls t) : Dense size (calls ++ [.reset]) t.reset := by
  have huse : inUse (calls ++ [.reset]) = 0 := inUse_concat _ _
  have hgiven : ∀ i, lastGiven i (calls ++ [.reset]) = none := fun i =>
    lastGiven_concat i calls .reset
  refine ⟨?_, ?_, fun i hi => ?_, fun i _ => hgiven i⟩
  · rw [huse, capacity_reset]
    exact List.range_eq_range'
  · rw [capacity_reset]
    exact h.doubled_concat (huse ▸ Nat.zero_le _)
  · rw [capacity_reset] at hi
    rw [hgiven, get?_reset, if_pos hi]
    rfl

lemma Dense.step (h : Dense size calls t) {call : Call F} (hcall : call.Fits t) :
    Dense size (calls ++ [call]) (t.step call) := by
  cases call with
  | alloc => exact h.alloc
  | set slot entry => exact h.set hcall
  | reset => exact h.reset

lemma dense_run (h : (ofSize size).Proper calls) : Dense size calls (run size calls) := by
  induction calls using List.reverseRecOn with
  | nil => exact dense_nil size
  | append_singleton calls call ih =>
    obtain ⟨hcalls, hcall⟩ := h.of_concat
    rw [run_concat]
    exact (ih hcalls).step hcall

end

/-- After any calls that replace only slots that exist, the slot that is handed out next is the number
of slots handed out since the table was made or last reset. It is in range, and holds what was put
into it since then, or nothing; so does every slot that the table has. The table has as many slots as
at first, times the least power of two that was enough at all times, and never loses any by further
calls. Handing out a slot keeps all slots and adds vacant ones only, and resetting makes all of them
vacant. -/
theorem handed_out_densely (calls more : List (Call F)) (h : (ofSize size).Proper calls) :
    (run size calls).alloc.1 = inUse calls ∧
    inUse calls < (run size calls).alloc.2.capacity ∧
    (run size calls).alloc.2.get? (inUse calls) =
      some ((lastGiven (inUse calls) calls).getD .vacant) ∧
    (∀ i < (run size calls).capacity,
      (run size calls).get? i = some ((lastGiven i calls).getD .vacant)) ∧
    (∃ j, (run size calls).capacity = max size 1 * 2 ^ j ∧
      IsLeast {j | Enough calls (max size 1 * 2 ^ j)} j) ∧
    (run size calls).capacity ≤ (run size (calls ++ more)).capacity ∧
    (∀ i, (run size calls).alloc.2.get? i =
      if i < (run size calls).capacity then (run size calls).get? i
      else if i < (run size calls).alloc.2.capacity then some .vacant else none) ∧
    (∀ slot entry i, ((run size calls).set slot entry).get? i =
      if slot = i then ((run size calls).get? i).map fun _ => entry else (run size calls).get? i) ∧
    (run size calls).reset.capacity = (run size calls).capacity ∧
    ∀ i < (run size calls).capacity, (run size calls).reset.get? i = some .vacant := by
  have hdense := dense_run h
  obtain ⟨hslot, hlt, -⟩ := hdense.alloc_eq
  refine ⟨hslot, hlt, ?_, hdense.holds, hdense.doubled, ?_, get?_alloc _,
    fun slot entry i => get?_set .., capacity_reset _, fun i hi => ?_⟩
  · have hgiven : lastGiven (inUse calls) (calls ++ [.alloc]) = lastGiven (inUse calls) calls :=
      lastGiven_concat _ calls .alloc
    rw [← hgiven]
    exact hdense.alloc.holds _ hlt
  · rw [run, run, List.foldl_append]
    exact capacity_le_foldl _ more
  · rw [get?_reset, if_pos hi]

/-- A table of one slot that has doubled twice and was reset hands out slot 1 after slot 0; a function
was put into it before it was handed out. -/
theorem handed_out_densely_reset :
    (ofSize 1).Proper [.alloc, .alloc, .alloc, .reset, .alloc, .set 1 (.compiled 64 ())] ∧
    ∃ t : FunctionTable Unit,
      t = run 1 [.alloc, .alloc, .alloc, .reset, .alloc, .set 1 (.compiled 64 ())] ∧
      t.capacity = 4 ∧ t.alloc.1 = 1 ∧ t.alloc.2.get? 1 = some (.compiled 64 ()) ∧
      t.reset.get? 1 = some .vacant := by
  have hproper : (ofSize 1).Proper
      [.alloc, .alloc, .alloc, .reset, .alloc, .set 1 (.compiled 64 ())] := by decide +kernel
  obtain ⟨hslot, -, hholds, -, -, -, -, -, -, hreset⟩ := handed_out_densely _ [] hproper
  exact ⟨hproper, _, rfl, rfl, hslot, hholds, hreset 1 (by decide +kernel)⟩

end Dynarec.Linking.FunctionTable
