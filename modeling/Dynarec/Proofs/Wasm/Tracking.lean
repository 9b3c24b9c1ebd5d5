import Dynarec.Proofs.Cpu.Places
import Dynarec.Proofs.Wasm.Addresses
import Dynarec.Proofs.Wasm.GuestAccess
import Dynarec.Proofs.Wasm.Operators

/-!
# Machines in linear memory

A machine is held by what a running function shares with its host: guest memory from address zero, and above
it the register image. An activation tracks a frame when it holds the frame's machine and the scratch locals
are in its own locals. Emitted code reads and writes places of the frame.
-/

namespace Dynarec.Wasm

open Cpu (State)
open Cpu.State (InImage kept)
open Ir (Place Operand)
open Interp (Frame)

variable {ε H : Type} {env : Environment ε H} {c : Context} {r d : Nat} {image : UInt32}
  {m : Machine H} {index : Nat} {shared : Instance H} {f : Frame H} {a : Activation H} {s : List Value}
  {p : Place} {cpu : State}

/-- What is shared holds a machine: guest memory of `r` bytes at address zero, and the register image above
it, within a linear memory that has addresses of 32 bits. -/
structure Holds (r : Nat) (image : UInt32) (m : Machine H) (shared : Instance H) : Prop where
  host : shared.host = m.host
  ram : shared.memory.extract 0 r = m.mem.bytes
  above : r ≤ image.toNat
  fits : image.toNat + State.byteSize ≤ shared.memory.size
  limit : shared.memory.size ≤ 2 ^ 32
  state : State.readImage shared.memory image.toNat = m.cpu
  normalized : m.cpu.Normalized

namespace Holds

variable (h : Holds r image m shared)
include h

lemma le_memory : r ≤ shared.memory.size := by
  have := h.above
  have := h.fits
  omega

lemma size_mem : m.mem.size = r := by
  have hle := h.le_memory
  rw [Memory.size, ← h.ram, ByteArray.size_extract]
  omega

/-- A word of guest memory. -/
lemma readWord {i count : Nat} (hi : i + count ≤ r) :
    Bytes.readWord shared.memory i count = Bytes.readWord m.mem.bytes i count := by
  apply Bytes.readWord_congr
  intro j _ hj
  rw [← h.ram, Bytes.get_extract (by omega)]

/-- Writing the word of a place writes the place. -/
lemma writePlace (hp : InImage p) (v : UInt64) :
    Holds r image ⟨m.cpu.writePlace p v, m.mem, m.host⟩
      ⟨Bytes.writeWord shared.memory (image.toNat + m.cpu.wordOf p * 8) 8 (kept v p), shared.host⟩ where
  host := h.host
  ram := by
    have := h.above
    rw [← h.ram]
    dsimp only
    exact Bytes.extract_congr (Bytes.size_writeWord ..) fun j hj =>
      Bytes.get_writeWord_of_outside (by omega) _ _
  above := h.above
  fits := by
    rw [Bytes.size_writeWord]
    exact h.fits
  limit := by
    rw [Bytes.size_writeWord]
    exact h.limit
  state := by
    dsimp only
    exact State.readImage_writeWord m.cpu h.fits hp h.state v
  normalized := h.normalized.writePlace p v

/-- Writing linear memory within guest memory writes guest memory. -/
lemma writeWord {i count : Nat} (hi : i + count ≤ r) (v : UInt64) :
    Holds r image ⟨m.cpu, ⟨Bytes.writeWord m.mem.bytes i count v⟩, m.host⟩
      ⟨Bytes.writeWord shared.memory i count v, shared.host⟩ where
  host := h.host
  ram := by
    rw [Bytes.extract_writeWord hi h.le_memory, h.ram]
  above := h.above
  fits := by
    rw [Bytes.size_writeWord]
    exact h.fits
  limit := by
    rw [Bytes.size_writeWord]
    exact h.limit
  state := by
    rw [← h.state]
    have := h.above
    exact State.readImage_congr fun j hle _ => Bytes.get_writeWord_of_outside (by omega) _ _
  normalized := h.normalized

end Holds

/-- An activation with a value put into one of its locals. -/
def Activation.put (a : Activation H) (index : Nat) (v : Value) : Activation H :=
  { a with locals := a.locals.setIfInBounds index v }

section
variable {v : Value}

lemma get_put (h : index < a.locals.size) : (a.put index v).locals[index]? = some v :=
  Array.getElem?_setIfInBounds_self_of_lt h

lemma get_put_of_ne {i : Nat} (h : index ≠ i) : (a.put index v).locals[i]? = a.locals[i]? :=
  Array.getElem?_setIfInBounds_ne h

lemma size_put : (a.put index v).locals.size = a.locals.size := Array.size_setIfInBounds

lemma Steps.put (h : index < a.locals.size) : Steps env [.localSet index] (v :: s) a s (a.put index v) :=
  .localSet h

end

/-- An activation tracks a frame: what it shares holds the machine, and it has the address of the image, the
scratch locals and the dispatch variable in its locals. -/
structure Tracks (c : Context) (r : Nat) (image : UInt32) (f : Frame H) (d : Nat) (a : Activation H) :
    Prop where
  holds : Holds r image f.machine a.shared
  size : a.locals.size = c.longLocals + 2
  count : f.locals.size = c.types.size
  param : a.locals[Context.imageLocal]? = some (.i32 image)
  scratch (l : Ir.Local) : l.id < c.types.size →
    a.locals[Context.valueLocal l]? = some (.i64 (f.locals.getD l.id 0))
  dispatch : a.locals[c.dispatchLocal]? = some (.i32 (UInt32.ofNat d))

namespace Tracks

/-- The locals of the code for itself. -/
def Spare (c : Context) (index : Nat) : Prop := c.spareLocal ≤ index ∧ index ≤ c.rhsLocal

lemma spare_spareLocal : Spare c c.spareLocal := by
  unfold Spare Context.rhsLocal
  omega

lemma spare_lhsLocal : Spare c c.lhsLocal := by
  unfold Spare Context.lhsLocal Context.rhsLocal
  omega

lemma spare_rhsLocal : Spare c c.rhsLocal := by
  unfold Spare Context.rhsLocal
  omega

lemma Spare.lt (h : Spare c index) (hsize : a.locals.size = c.longLocals + 2) :
    index < a.locals.size := by
  have := h.2
  rw [hsize]
  simp only [Context.rhsLocal, Context.spareLocal, Context.longLocals] at *
  omega

variable (h : Tracks c r image f d a)
include h

lemma sees : Sees a image f.machine.cpu where
  param := h.param
  fits := h.holds.fits
  limit := h.holds.limit
  state := h.holds.state

/-- What is in a local for the code itself does not matter. -/
lemma put (hindex : Spare c index) (v : Value) : Tracks c r image f d (a.put index v) := by
  have hlow := hindex.1
  have hhigh := hindex.2
  simp only [Context.rhsLocal, Context.spareLocal] at hlow hhigh
  refine { h with
    size := size_put.trans h.size
    param := ?_
    scratch := fun l hl => ?_
    dispatch := ?_ }
  · rw [get_put_of_ne (by simp only [Context.imageLocal]; omega)]
    exact h.param
  · rw [get_put_of_ne (by simp only [Context.valueLocal]; omega)]
    exact h.scratch l hl
  · rw [get_put_of_ne (by simp only [Context.dispatchLocal, Context.longLocals]; omega)]
    exact h.dispatch

lemma dispatchLocal_lt : c.dispatchLocal < a.locals.size := by
  rw [h.size, Context.dispatchLocal]
  omega

/-- The dispatch variable is set. -/
lemma setDispatch (id : Nat) : Tracks c r image f id (a.put c.dispatchLocal (.i32 (UInt32.ofNat id))) where
  holds := h.holds
  size := size_put.trans h.size
  count := h.count
  param := by
    rw [get_put_of_ne (by simp only [Context.dispatchLocal, Context.longLocals, Context.imageLocal]; omega)]
    exact h.param
  scratch l hl := by
    rw [get_put_of_ne (by simp only [Context.dispatchLocal, Context.longLocals, Context.valueLocal]; omega)]
    exact h.scratch l hl
  dispatch := get_put h.dispatchLocal_lt

/-- A value that is kept for the code itself is found again. -/
lemma keep (env : Environment ε H) (s : List Value) (hindex : Spare c index) (v : Value) :
    Steps env [.localSet index] (v :: s) a s (a.put index v) ∧
      ∀ s, Steps env [.localGet index] s (a.put index v) (v :: s) (a.put index v) :=
  ⟨.put (hindex.lt h.size), fun _ => .localGet (get_put (hindex.lt h.size))⟩

end Tracks

/-! ### Places -/

/-- The code for the address from which a word of the image is counted. -/
def placeAddress : Place → List Instruction
  | .sp => Codegen.selectedSpAddress
  | .elr .current | .spsr .current => Codegen.currentBankAddress
  | _ => [.localGet Context.imageLocal]

/-- How far from that address a word of the image is. -/
def placeOffset : Place → Nat
  | .sp => State.spElBase
  | .elr .current => State.elrBase
  | .spsr .current => State.spsrBase
  | p => Codegen.fixedOffset p

/-- A word of the image is read at its address. -/
lemma readPlace_eq (hp : InImage p) :
    Codegen.readPlace p = placeAddress p ++ [.load .double (placeOffset p)] := by
  cases p with
  | x n => exact if_neg (Nat.not_le.2 hp)
  | elr bank => cases bank <;> rfl
  | spsr bank => cases bank <;> rfl
  | scratch l => exact hp.elim
  | _ => rfl

/-- A word of the image is written at its address. -/
lemma writePlace_eq (c : Context) (hp : InImage p) :
    Codegen.writePlace c p = Codegen.writeAt c (placeAddress p) (Codegen.normalize p) (placeOffset p) := by
  cases p with
  | x n => exact if_neg (Nat.not_le.2 hp)
  | elr bank => cases bank <;> rfl
  | spsr bank => cases bank <;> rfl
  | scratch l => exact hp.elim
  | _ => rfl

/-- The address is that of the word. -/
lemma placeAddress_steps (env : Environment ε H) (s : List Value) (h : Sees a image cpu) (hcpu : cpu.Normalized)
    (hp : InImage p) : ∃ addr : UInt32, addr.toNat + placeOffset p = image.toNat + cpu.wordOf p * 8 ∧
      Steps env (placeAddress p) s a (.i32 addr :: s) a := by
  have hfixed : ∀ base i, Codegen.fixedOffset p = base * 8 + i * 8 → ∃ addr : UInt32,
      addr.toNat + Codegen.fixedOffset p = image.toNat + (base + i) * 8 ∧
        Steps env [.localGet Context.imageLocal] s a (.i32 addr :: s) a := fun base i hi =>
    ⟨image, by rw [hi, Nat.add_mul], .localGet h.param⟩
  have hbank : ∀ base, ∃ addr : UInt32,
      addr.toNat + base * 8 = image.toNat + (base + (Cpu.bankIndex cpu.readEl).val) * 8 ∧
        Steps env Codegen.currentBankAddress s a (.i32 addr :: s) a := by
    intro base
    obtain ⟨addr, haddr, hsteps⟩ := currentBankAddress_steps env s h hcpu
    exact ⟨addr, by omega, hsteps⟩
  cases p with
  | scratch l => exact hp.elim
  | sp =>
    obtain ⟨addr, haddr, hsteps⟩ := selectedSpAddress_steps env s h hcpu
    refine ⟨addr, ?_, hsteps⟩
    rw [haddr, show State.wordOf cpu .sp = 31 + cpu.spIndex.val from rfl,
      show placeOffset .sp = 31 * 8 from rfl]
    omega
  | elr bank =>
    cases bank with
    | current => exact hbank 35
    | level el => exact hfixed 35 _ rfl
  | spsr bank =>
    cases bank with
    | current => exact hbank 38
    | level el => exact hfixed 38 _ rfl
  | x n =>
    obtain ⟨addr, haddr, hsteps⟩ := hfixed 0 n rfl
    exact ⟨addr, by rw [Nat.zero_add] at haddr; exact haddr, hsteps⟩
  | spEl el => exact hfixed 31 _ rfl
  | flag f => exact hfixed 41 _ rfl
  | el => exact hfixed 45 0 rfl
  | spsel => exact hfixed 46 0 rfl
  | daif => exact hfixed 47 0 rfl
  | sys slot => exact hfixed 48 _ rfl

/-- A value is cut to what its place keeps. -/
lemma normalize_steps (env : Environment ε H) (p : Place) (v : UInt64) (s : List Value) (a : Activation H) :
    Steps env (Codegen.normalize p) (.i64 v :: s) a (.i64 (kept v p) :: s) a := by
  cases p with
  | flag f => exact Steps.isNonzero.append .extendTruth
  | el => exact Steps.i64Const.cons (.bin64 rfl)
  | spsel => exact Steps.i64Const.cons (.bin64 rfl)
  | daif => exact Steps.i64Const.cons (.bin64 rfl)
  | _ => exact .nil

/-- A word of the image is read and written below the locals of a frame. -/
lemma frame_readPlace (f : Frame H) (hp : InImage p) : f.readPlace p = f.machine.cpu.readPlace p := by
  cases p with
  | scratch l => exact hp.elim
  | _ => rfl

lemma frame_write (types : Array Ir.Ty) (f : Frame H) (hp : InImage p) (v : UInt64) :
    f.write types p v = ⟨⟨f.machine.cpu.writePlace p v, f.machine.mem, f.machine.host⟩, f.locals⟩ := by
  cases p with
  | scratch l => exact hp.elim
  | _ => rfl

/-- A place that is no word of the image is a register that reads as zero, or a scratch local. -/
lemma exists_of_not_inImage (hp : ¬ InImage p) :
    (∃ n, p = .x n ∧ 31 ≤ n) ∨ ∃ l, p = .scratch l := by
  cases p with
  | x n => exact .inl ⟨n, rfl, Nat.not_lt.1 hp⟩
  | scratch l => exact .inr ⟨l, rfl⟩
  | _ => exact absurd trivial hp

namespace Tracks

variable (h : Tracks c r image f d a)
include h

/-- A word of the image is in memory. -/
lemma wordOf_fits (hp : InImage p) : image.toNat + f.machine.cpu.wordOf p * 8 + 8 ≤ a.shared.memory.size := by
  have hlt : f.machine.cpu.wordOf p < 68 := f.machine.cpu.wordOf_lt hp
  have hfits := h.holds.fits
  simp only [State.byteSize, State.wordCount] at hfits
  omega

/-- The value of a place is pushed. -/
lemma readPlace (env : Environment ε H) (s : List Value) (hp : p.Declared c.types.size) :
    Steps env (Codegen.readPlace p) s a (.i64 (f.readPlace p) :: s) a := by
  by_cases himage : InImage p
  · obtain ⟨addr, haddr, hsteps⟩ := placeAddress_steps env s h.sees h.holds.normalized himage
    have hload : Steps env [.load .double (placeOffset p)] (.i32 addr :: s) a _ a :=
      Steps.load (show addr.toNat + placeOffset p + 8 ≤ _ from haddr ▸ h.wordOf_fits himage)
    rw [haddr, show AccessSize.double.bytes = 8 from rfl, State.readWord_of_readImage h.holds.state
      (f.machine.cpu.getElem?_wordOf himage h.holds.normalized)] at hload
    rw [readPlace_eq himage, frame_readPlace f himage]
    exact hsteps.append hload
  · obtain ⟨n, rfl, hn⟩ | ⟨l, rfl⟩ := exists_of_not_inImage himage
    · have hcode : Codegen.readPlace (.x n) = [.i64Const 0] := if_pos hn
      have hvalue : f.readPlace (.x n) = 0 := dif_neg (Nat.not_lt.2 hn)
      rw [hcode, hvalue]
      exact .i64Const
    · exact .localGet (h.scratch l hp)

/-- The value of an operand is pushed. -/
lemma readOperand (env : Environment ε H) (s : List Value) {x : Operand} (hx : x.Declared c.types.size) :
    Steps env (Codegen.readOperand x) s a (.i64 (f.read x) :: s) a := by
  cases x with
  | imm value => exact .i64Const
  | place p => exact h.readPlace env s hx

/-- A value is written at the address of a word of the image. -/
lemma writeWord (env : Environment ε H) (s : List Value) (hp : InImage p) (v : UInt64) :
    ∃ a', Steps env (Codegen.writePlace c p) (.i64 v :: s) a s a' ∧
      Tracks c r image (f.write c.types p v) d a' := by
  have hspare := h.put Tracks.spare_spareLocal (.i64 v)
  obtain ⟨hset, hget⟩ := h.keep env s Tracks.spare_spareLocal (.i64 v)
  obtain ⟨addr, haddr, hsteps⟩ := placeAddress_steps env s hspare.sees h.holds.normalized hp
  have hstore : Steps env [.store .double (placeOffset p)] (.i64 (kept v p) :: .i32 addr :: s)
      (a.put c.spareLocal (.i64 v)) s _ :=
    Steps.store (show addr.toNat + placeOffset p + 8 ≤ _ from haddr ▸ h.wordOf_fits hp)
  rw [haddr, show AccessSize.double.bytes = 8 from rfl] at hstore
  rw [writePlace_eq c hp, frame_write c.types f hp]
  refine ⟨_, ((hset.cons hsteps).append ((hget _).cons (normalize_steps env p v _ _))).append hstore, ?_⟩
  exact { hspare with holds := h.holds.writePlace hp v }

/-- A scratch local is set to the bits of its type. -/
lemma setScratch {l : Ir.Local} (hl : l.id < c.types.size) (v : UInt64) :
    Tracks c r image { f with locals := f.locals.setIfInBounds l.id v } d
      (a.put (Context.valueLocal l) (.i64 v)) := by
  refine { h with
    size := size_put.trans h.size
    count := Array.size_setIfInBounds.trans h.count
    param := ?_
    scratch := fun k hk => ?_
    dispatch := ?_ }
  · rw [get_put_of_ne (by simp only [Context.valueLocal, Context.imageLocal]; omega)]
    exact h.param
  · by_cases hkl : l.id = k.id
    · have hlt : Context.valueLocal k < a.locals.size := by
        rw [h.size, Context.longLocals, Context.valueLocal]
        omega
      rw [Context.valueLocal, hkl, ← Context.valueLocal, get_put hlt]
      simp [Array.getD_eq_getD_getElem?, h.count, hk]
    · rw [get_put_of_ne (by simp only [Context.valueLocal]; omega), h.scratch k hk]
      simp [Array.getD_eq_getD_getElem?, hkl]
  · rw [get_put_of_ne (by simp only [Context.valueLocal, Context.dispatchLocal, Context.longLocals]; omega)]
    exact h.dispatch

/-- A value is written to a place. -/
lemma writePlace (env : Environment ε H) (s : List Value) (hp : p.Declared c.types.size) (v : UInt64) :
    ∃ a', Steps env (Codegen.writePlace c p) (.i64 v :: s) a s a' ∧
      Tracks c r image (f.write c.types p v) d a' := by
  by_cases himage : InImage p
  · exact h.writeWord env s himage v
  · obtain ⟨n, rfl, hn⟩ | ⟨l, rfl⟩ := exists_of_not_inImage himage
    · have hcode : Codegen.writePlace c (.x n) = [.drop] := if_pos hn
      have hframe : f.write c.types (.x n) v = f := by
        have hcpu : f.machine.cpu.writePlace (.x n) v = f.machine.cpu := dif_neg (Nat.not_lt.2 hn)
        show (⟨⟨f.machine.cpu.writePlace (.x n) v, f.machine.mem, f.machine.host⟩, f.locals⟩ : Frame H) = f
        rw [hcpu]
      rw [hcode, hframe]
      exact ⟨a, .drop, h⟩
    · have hl : l.id < c.types.size := hp
      have hcut : Steps env (if c.types[l.id]? = some .i32 then Codegen.cut .w32 else []) (.i64 v :: s) a
          (.i64 (v &&& (c.types.getD l.id .i64).mask) :: s) a := by
        rw [Array.getD_eq_getD_getElem?, Array.getElem?_eq_getElem hl, Option.getD_some]
        cases c.types[l.id] with
        | i32 =>
          rw [if_pos rfl]
          exact .cut
        | i64 =>
          rw [if_neg (by simp)]
          rw [show v &&& Ir.Ty.i64.mask = v from Width.and_mask_w64 v]
          exact .nil
      have hlt : Context.valueLocal l < a.locals.size := by
        rw [h.size, Context.longLocals, Context.valueLocal]
        omega
      exact ⟨_, hcut.append (.put hlt), h.setScratch hl _⟩

end Tracks

end Dynarec.Wasm
