import Mathlib.Data.List.Induction
import Dynarec.Proofs.Run
import Dynarec.Proofs.Word.Bytes

/-!
# What memory holds

An access succeeds when the bytes that it covers lie in memory, by the sum of its address and its length as
numbers, and changes nothing when it fails. So memory holds at every address the byte that the last write gave to
it which succeeded and covered it, whatever writes were tried before, and a read gives the number that has these
bytes as its digits.
-/

namespace Dynarec

/-! ### Bytes of copies -/

namespace Bytes

section
variable {bytes data : ByteArray} {a : Nat}

/-- A copy lies between what stands before it and what stands after it. -/
lemma data_copySlice : (data.copySlice 0 bytes a data.size).data =
    bytes.data.extract 0 a ++ data.data.extract 0 (0 + data.size) ++
      bytes.data.extract (a + min data.size (data.data.size - 0)) bytes.data.size := rfl

variable (h : a + data.size ≤ bytes.size)
include h

lemma size_copySlice : (data.copySlice 0 bytes a data.size).size = bytes.size := by
  have hdata : data.data.size = data.size := rfl
  have hbytes : bytes.data.size = bytes.size := rfl
  show (data.copySlice 0 bytes a data.size).data.size = bytes.size
  rw [data_copySlice, Array.size_append, Array.size_append, Array.size_extract, Array.size_extract,
    Array.size_extract, hdata, hbytes]
  omega

/-- Bytes that are copied are those of the copy, and all others stay. -/
lemma get_copySlice (j : Nat) : get (data.copySlice 0 bytes a data.size) j =
    if a ≤ j ∧ j < a + data.size then get data (j - a) else get bytes j := by
  have hbytes : bytes.data.size = bytes.size := rfl
  have hdata : data.data.size = data.size := rfl
  have hstart : (bytes.data.extract 0 a).size = a := by
    rw [Array.size_extract]
    omega
  have hcopied : (data.data.extract 0 (0 + data.size)).size = data.size := by
    rw [Array.size_extract]
    omega
  rw [get_eq_getElem?, data_copySlice]
  -- the bytes before the copy, those of the copy and those after it
  rcases Nat.lt_or_ge j a with hlow | hlow
  · rw [if_neg (by omega), Array.append_assoc, Array.getElem?_append_left (by omega), Array.getElem?_extract,
      if_pos (by omega), get_eq_getElem?, Nat.zero_add]
  · rcases Nat.lt_or_ge j (a + data.size) with hhigh | hhigh
    · rw [if_pos ⟨hlow, hhigh⟩, Array.append_assoc, Array.getElem?_append_right (by omega), hstart,
        Array.getElem?_append_left (by omega), Array.getElem?_extract, if_pos (by omega), get_eq_getElem?,
        Nat.zero_add]
    · rw [if_neg (by omega), Array.getElem?_append_right (by rw [Array.size_append]; omega), Array.size_append,
        hstart, hcopied, Array.getElem?_extract, get_eq_getElem?]
      split
      · congr 2
        omega
      · rw [Array.getElem?_eq_none (by omega)]

end

end Bytes

namespace Memory

/-! ### Single accesses -/

/-- What an access to some bytes answers: when they lie in memory it succeeds, and what it gives is as expected; when
they do not it fails with the error that names the access and the size of memory. -/
def Answers {α : Type} (m : Memory) (addr : UInt64) (len : Nat) (expected : α → Prop) : Except Error α → Prop
  | .ok a => addr.toNat + len ≤ m.size ∧ expected a
  | .error e => m.size < addr.toNat + len ∧ e = .outOfBounds addr len m.size

variable {m : Memory} {n j : Nat}

lemma inRange_iff {addr : UInt64} {len : Nat} : m.inRange addr len ↔ addr.toNat + len ≤ m.size :=
  decide_eq_true_iff

/-- Bytes that are read are those from the address on. -/
lemma answers_readBytes (m : Memory) (addr : UInt64) (len : Nat) :
    m.Answers addr len (fun out => out.size = len ∧
      ∀ i < len, Bytes.get out i = Bytes.get m.bytes (addr.toNat + i)) (m.readBytes addr len) := by
  unfold readBytes
  split
  · next h =>
    rw [inRange_iff] at h
    have hsize : (m.bytes.extract addr.toNat (addr.toNat + len)).size = len := by
      rw [ByteArray.size_extract]
      change _ ≤ m.bytes.size at h
      omega
    refine ⟨h, hsize, fun i hi => ?_⟩
    rw [Bytes.get_eq_getElem?, Bytes.get_eq_getElem?, ByteArray.data_extract, Array.getElem?_extract, if_pos]
    change _ ≤ m.bytes.data.size at h
    omega
  · next h =>
    rw [inRange_iff] at h
    exact ⟨Nat.not_le.1 h, rfl⟩

/-- A value that is read has the bytes from the address on as its digits. -/
lemma answers_read (m : Memory) (addr : UInt64) (size : AccessSize) :
    m.Answers addr size.bytes (fun v => v.toNat = Nat.ofDigits 256 ((List.range size.bytes).map fun i =>
      (Bytes.get m.bytes (addr.toNat + i)).toNat)) (m.read addr size) := by
  unfold read
  split
  · next h =>
    have hbytes : size.bytes ≤ 8 := by cases size <;> decide
    exact ⟨inRange_iff.1 h, Bytes.toNat_readWord hbytes⟩
  · next h =>
    rw [inRange_iff] at h
    exact ⟨Nat.not_le.1 h, rfl⟩

/-- A write of bytes, or of the low bytes of a value. -/
inductive Write where
  | bytes (addr : UInt64) (data : ByteArray)
  | value (addr : UInt64) (size : AccessSize) (v : UInt64)

namespace Write

/-- Where a write starts. -/
def addr : Write → UInt64
  | .bytes addr _ | .value addr _ _ => addr

/-- Number of bytes that a write covers. -/
def length : Write → Nat
  | .bytes _ data => data.size
  | .value _ size _ => size.bytes

/-- The byte that a write gives to an address, counted from where it starts. -/
def byte : Write → Nat → UInt8
  | .bytes _ data, k => Bytes.get data k
  | .value _ _ v, k => Bytes.byteAt v k

/-- Try a write. -/
def run : Write → EStateM Error Memory Unit
  | .bytes addr data => writeBytes addr data
  | .value addr size v => Memory.write addr size v

/-- A write lies in a memory of a size. -/
def Fits (n : Nat) (w : Write) : Prop := w.addr.toNat + w.length ≤ n

/-- A write covers an address. -/
def Covers (j : Nat) (w : Write) : Prop := w.addr.toNat ≤ j ∧ j < w.addr.toNat + w.length

instance (n : Nat) (w : Write) : Decidable (w.Fits n) := inferInstanceAs (Decidable (_ ≤ _))

instance (j : Nat) (w : Write) : Decidable (w.Covers j) := inferInstanceAs (Decidable (_ ∧ _))

/-- What a write leaves of a memory: when it lies in memory, the addresses that it covers have its bytes and the others
stay; when it does not, it fails with the error that names it and the size of memory, which stays as it is. -/
def Leaves (w : Write) (m : Memory) : EStateM.Result Error Memory Unit → Prop
  | .ok _ m' => w.Fits m.size ∧ m'.size = m.size ∧
      ∀ j, Bytes.get m'.bytes j = if w.Covers j then w.byte (j - w.addr.toNat) else Bytes.get m.bytes j
  | .error e m' => ¬w.Fits m.size ∧ e = .outOfBounds w.addr w.length m.size ∧ m' = m

lemma leaves_run (w : Write) (m : Memory) : w.Leaves m (w.run m) := by
  cases w with
  | bytes addr data =>
    unfold run writeBytes
    dsimp only
    split
    · next h =>
      rw [inRange_iff] at h
      exact ⟨h, Bytes.size_copySlice h, Bytes.get_copySlice h⟩
    · next h =>
      rw [inRange_iff] at h
      exact ⟨h, rfl, rfl⟩
  | value addr size v =>
    unfold run Memory.write
    dsimp only
    split
    · next h =>
      rw [inRange_iff] at h
      refine ⟨h, Bytes.size_writeWord .., fun j => ?_⟩
      split
      · next hj =>
        obtain ⟨hle, hlt⟩ : addr.toNat ≤ j ∧ j < addr.toNat + size.bytes := hj
        exact Bytes.get_writeWord_of_inside hle hlt (Nat.lt_of_lt_of_le hlt h)
      · next hj =>
        have hout : ¬(addr.toNat ≤ j ∧ j < addr.toNat + size.bytes) := hj
        exact Bytes.get_writeWord_of_outside (by omega) _ _
    · next h =>
      rw [inRange_iff] at h
      exact ⟨h, rfl, rfl⟩

/-- The byte that a write gives to an address, if it succeeds in a memory of a size and covers the address. -/
def given (n j : Nat) (w : Write) : Option UInt8 :=
  if w.Fits n ∧ w.Covers j then some (w.byte (j - w.addr.toNat)) else none

end Write

/-! ### Sequences of writes -/

/-- Memory after writes that are tried one after the other. -/
def tryAll (ws : List Write) (m : Memory) : Memory := ws.foldl (fun m w => EStateM.after (w.run m)) m

/-- The byte that the last write gave to an address, of those that succeeded in a memory of a size and covered the
address. -/
def lastGiven (n j : Nat) (ws : List Write) : Option UInt8 := (ws.filterMap (Write.given n j)).getLast?

/-- One more write gives its bytes, or changes nothing. -/
lemma get_after_run (w : Write) (m : Memory) : (EStateM.after (w.run m)).size = m.size ∧
    ∀ j, Bytes.get (EStateM.after (w.run m)).bytes j = (w.given m.size j).getD (Bytes.get m.bytes j) := by
  have h := w.leaves_run m
  cases hrun : w.run m with
  | ok u m' =>
    rw [hrun] at h
    obtain ⟨hfits, hsize, hget⟩ := h
    refine ⟨hsize, fun j => (hget j).trans ?_⟩
    by_cases hj : w.Covers j
    · rw [if_pos hj, Write.given, if_pos ⟨hfits, hj⟩, Option.getD_some]
    · rw [if_neg hj, Write.given, if_neg fun h => hj h.2, Option.getD_none]
  | error e m' =>
    rw [hrun] at h
    obtain ⟨hfits, -, rfl⟩ := h
    refine ⟨rfl, fun j => ?_⟩
    rw [Write.given, if_neg fun h => hfits h.1, Option.getD_none]
    rfl

/-- Every address holds what was given to it last, or else what it held at the start. -/
theorem get_tryAll (ws : List Write) (m : Memory) : (tryAll ws m).size = m.size ∧
    ∀ j, Bytes.get (tryAll ws m).bytes j = (lastGiven m.size j ws).getD (Bytes.get m.bytes j) := by
  induction ws using List.reverseRecOn with
  | nil => exact ⟨rfl, fun _ => rfl⟩
  | append_singleton ws w ih =>
    obtain ⟨hsize, hget⟩ := ih
    have htry : tryAll (ws ++ [w]) m = EStateM.after (w.run (tryAll ws m)) := by
      rw [tryAll, List.foldl_append]
      rfl
    obtain ⟨hsize', hget'⟩ := get_after_run w (tryAll ws m)
    rw [htry]
    refine ⟨hsize'.trans hsize, fun j => ?_⟩
    rw [hget', hget, hsize, lastGiven, lastGiven, List.filterMap_append, List.getLast?_append]
    cases hgiven : w.given m.size j with
    | none => simp [hgiven]
    | some b => simp [hgiven]

/-- Guest memory is an exact store of bytes. A write or a read succeeds when its address and its length, added as
numbers, do not exceed the size of memory; else it fails with the error that names the access, and memory stays as it
is. After any writes to fresh memory, of which any may have failed, a value that is read has as its digits to base 256,
the least significant one first, the bytes that were given last to its addresses, and zero where none was given. -/
theorem accesses_exact (m : Memory) (w : Write) (addr : UInt64) (len : Nat) (size : AccessSize) (n : Nat)
    (ws : List Write) :
    w.Leaves m (w.run m) ∧
    m.Answers addr len (fun out => out.size = len ∧
      ∀ i < len, Bytes.get out i = Bytes.get m.bytes (addr.toNat + i)) (m.readBytes addr len) ∧
    m.Answers addr size.bytes (fun v => v.toNat = Nat.ofDigits 256 ((List.range size.bytes).map fun i =>
      (Bytes.get m.bytes (addr.toNat + i)).toNat)) (m.read addr size) ∧
    (tryAll ws (zeroed n)).size = n ∧
    (tryAll ws (zeroed n)).Answers addr size.bytes (fun v => v.toNat = Nat.ofDigits 256 ((List.range size.bytes).map
      fun i => ((lastGiven n (addr.toNat + i) ws).getD 0).toNat)) ((tryAll ws (zeroed n)).read addr size) := by
  have hzeroed : (zeroed n).size = n := Bytes.size_zeros n
  obtain ⟨hsize, hget⟩ := get_tryAll ws (zeroed n)
  rw [hzeroed] at hsize hget
  refine ⟨w.leaves_run m, m.answers_readBytes addr len, m.answers_read addr size, hsize, ?_⟩
  have hread := (tryAll ws (zeroed n)).answers_read addr size
  have hzero : ∀ j, Bytes.get (zeroed n).bytes j = 0 := Bytes.get_zeros n
  simp only [hget, hzero] at hread
  exact hread

end Memory

end Dynarec
