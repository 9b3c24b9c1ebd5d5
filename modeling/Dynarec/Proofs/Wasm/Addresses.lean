import Dynarec.Proofs.Cpu.Image
import Dynarec.Proofs.Interp.Kept
import Dynarec.Proofs.Memory
import Dynarec.Proofs.Wasm.Execution
import Dynarec.Wasm.Codegen

/-!
# Addresses of banked registers

Emitted code finds the selected stack pointer and the exception registers of the current level by
arithmetic on the level and the selector in the register image. For an image of a normalized state
the addresses are those of the registers that the state selects.
-/

namespace Dynarec.Wasm

open Cpu (State)

variable {ε H : Type} {env : Environment ε H} {a : Activation H} {image : UInt32} {s : State}
  {t : List Value}

/-- A running function finds the image of a state at its parameter, all of it in memory. -/
structure Sees (a : Activation H) (image : UInt32) (s : State) : Prop where
  param : a.locals[Context.imageLocal]? = some (.i32 image)
  fits : image.toNat + State.byteSize ≤ a.shared.memory.size
  limit : a.shared.memory.size ≤ 2 ^ 32
  state : State.readImage a.shared.memory image.toNat = s

namespace Sees

variable (h : Sees a image s)
include h

/-- Reading a word of the image pushes the word. -/
lemma imageWord {i : Nat} {w : UInt64} (hw : s.toWords[i]? = some w) :
    Steps env (Codegen.imageWord (i * 8)) t a (.i64 w :: t) a := by
  obtain ⟨hi, -⟩ := Vector.getElem?_eq_some_iff.1 hw
  have hfits : image.toNat + i * 8 + AccessSize.double.bytes ≤ a.shared.memory.size := by
    have := h.fits
    have : i < 68 := hi
    simp only [State.byteSize, AccessSize.bytes, AccessSize.log2] at *
    omega
  have hword : Steps env _ _ a _ a := Steps.load (s := t) hfits
  rw [show AccessSize.double.bytes = 8 from rfl,
    State.readWord_of_readImage h.state hw] at hword
  exact (Steps.localGet h.param).cons hword

/-- A word of the image is addressed by its number, counted from some word of the image. -/
lemma indexAddress (env : Environment ε H) (t : List Value) {x : UInt64} (hx : x.toNat < State.wordCount) :
    ∃ addr : UInt32, addr.toNat = image.toNat + x.toNat * 8 ∧
      Steps env Codegen.indexAddress (.i64 x :: t) a (.i32 addr :: t) a := by
  have hshift : BinOp.shl.eval x.toUInt32.toBitVec (3 : UInt32).toBitVec =
      some (x.toUInt32.toBitVec <<< 3) := rfl
  have hadd : BinOp.add.eval (UInt32.ofBitVec (x.toUInt32.toBitVec <<< 3)).toBitVec image.toBitVec =
      some (x.toUInt32.toBitVec <<< 3 + image.toBitVec) := rfl
  refine ⟨.ofBitVec (x.toUInt32.toBitVec <<< 3 + image.toBitVec), ?_,
    Steps.wrap.cons <| Steps.i32Const.cons <| (Steps.bin32 hshift).cons <|
      (Steps.localGet h.param).cons <| Steps.bin32 hadd⟩
  have hfits := h.fits
  have hlimit := h.limit
  have hsmall : x.toNat < 68 := hx
  simp only [State.byteSize, State.wordCount] at hfits
  simp only [UInt32.toNat_ofBitVec, BitVec.toNat_add, BitVec.toNat_shiftLeft, UInt32.toNat_toBitVec,
    UInt64.toNat_toUInt32, Nat.shiftLeft_eq]
  omega

/-- The word that an address of the image is for. -/
lemma readWord_eq {addr : UInt32} {i base offset : Nat} {w : UInt64}
    (haddr : addr.toNat = image.toNat + i * 8) (hw : s.toWords[base + i]? = some w)
    (hoffset : offset = base * 8) :
    Bytes.readWord a.shared.memory (addr.toNat + offset) 8 = w := by
  rw [haddr, show image.toNat + i * 8 + offset = image.toNat + (base + i) * 8 by omega]
  exact State.readWord_of_readImage h.state hw

end Sees

/-- The address of the selected stack pointer, counted from the first one. -/
theorem selectedSpAddress_steps (env : Environment ε H) (t : List Value) (h : Sees a image s) (hs : s.Normalized) :
    ∃ addr : UInt32, addr.toNat = image.toNat + s.spIndex.val * 8 ∧
      Steps env Codegen.selectedSpAddress t a (.i32 addr :: t) a := by
  have hel : Steps env (Codegen.imageWord State.elOffset) t a (.i64 s.el :: t) a :=
    h.imageWord s.toWords_el
  have hspsel : Steps env (Codegen.imageWord State.spselOffset) (.i64 s.el :: t) a
      (.i64 s.spsel :: .i64 s.el :: t) a := h.imageWord s.toWords_spsel
  have hmul : BinOp.mul.eval s.el.toBitVec s.spsel.toBitVec =
      some (s.el * s.spsel).toBitVec := rfl
  have hlt : (s.el * s.spsel).toNat < State.wordCount := by
    rw [← hs.spIndex_eq]
    exact s.spIndex.isLt.trans (by decide)
  obtain ⟨addr, haddr, hindex⟩ := h.indexAddress env t hlt
  exact ⟨addr, by rw [haddr, hs.spIndex_eq], (hel.append hspsel).append
    ((Steps.bin64 hmul).cons hindex)⟩

/-- The address of an exception register of the current level, counted from that of level 1. -/
theorem currentBankAddress_steps (env : Environment ε H) (t : List Value) (h : Sees a image s) (hs : s.Normalized) :
    ∃ addr : UInt32, addr.toNat = image.toNat + (Cpu.bankIndex s.readEl).val * 8 ∧
      Steps env Codegen.currentBankAddress t a (.i32 addr :: t) a := by
  have hel : ∀ t, Steps env (Codegen.imageWord State.elOffset) t a (.i64 s.el :: t) a := fun _ =>
    h.imageWord s.toWords_el
  have hsub : BinOp.sub.eval s.el.toBitVec (s.el != 0).toUInt64.toBitVec =
      some (s.el - (s.el != 0).toUInt64).toBitVec := rfl
  have hne : Steps env [.i64Const 0, .rel .w64 .ne, .extendU] (.i64 s.el :: .i64 s.el :: t) a
      (.i64 (s.el != 0).toUInt64 :: .i64 s.el :: t) a := by
    have hcond : (s.el.toBitVec != (0 : UInt64).toBitVec) = (s.el != 0) := by
      cases hel : s.el != 0 <;> simp_all [← UInt64.toBitVec_inj]
    have hext : Steps env _ _ a _ a := Steps.extendU (s := .i64 s.el :: t)
      (x := if s.el != 0 then 1 else 0)
    have hword : (if s.el != 0 then (1 : UInt32) else 0).toUInt64 = (s.el != 0).toUInt64 := by
      cases s.el != 0 <;> rfl
    rw [hword] at hext
    refine Steps.i64Const.cons (Steps.rel64.cons ?_)
    rw [RelOp.holds, hcond]
    exact hext
  have hlt : (s.el - (s.el != 0).toUInt64).toNat < State.wordCount := by
    rw [← hs.bankIndex_eq]
    exact (Cpu.bankIndex s.readEl).isLt.trans (by decide)
  obtain ⟨addr, haddr, hindex⟩ := h.indexAddress env t hlt
  refine ⟨addr, by rw [haddr, hs.bankIndex_eq], ?_⟩
  exact ((((hel t).append (hel _)).append (hne.append (Steps.bin64 hsub)))).append hindex

/-- A state stays normalized: it is after reset, setters keep it so, and so does running any function,
wherever it stops, under a host that keeps it so. In the image of such a state the addresses that
emitted code computes are those of the selected stack pointer and of the exception registers of the
current level. -/
theorem normalized_always :
    State.reset.Normalized ∧
      (∀ s s' : State, s.Normalized → s.Sets s' → s'.Normalized) ∧
      (∀ {H : Type} (services : Interp.Services H), services.Maintain State.Normalized →
        ∀ (fuel : Nat) (f : Ir.Function) (m : Machine H), m.cpu.Normalized →
          (EStateM.after (Interp.invoke services fuel f m)).cpu.Normalized) ∧
      ∀ {ε H : Type} (env : Environment ε H) (a : Activation H) (image : UInt32) (s : State)
        (t : List Value), Sees a image s → s.Normalized →
        (∃ addr : UInt32, Steps env Codegen.selectedSpAddress t a (.i32 addr :: t) a ∧
          addr.toNat = image.toNat + s.spIndex.val * 8 ∧
          Bytes.readWord a.shared.memory (addr.toNat + State.spElBase) 8 = s.readSp) ∧
        ∃ addr : UInt32, Steps env Codegen.currentBankAddress t a (.i32 addr :: t) a ∧
          addr.toNat = image.toNat + (Cpu.bankIndex s.readEl).val * 8 ∧
          Bytes.readWord a.shared.memory (addr.toNat + State.elrBase) 8 = s.readElr s.readEl ∧
          Bytes.readWord a.shared.memory (addr.toNat + State.spsrBase) 8 = s.readSpsr s.readEl := by
  refine ⟨State.normalized_reset, fun s s' h hs => h.sets hs, fun services hs fuel f m hm => ?_,
    fun env a image s t h hs => ⟨?_, ?_⟩⟩
  · exact Interp.invoke_maintains (fun _ place value h => h.writePlace place value) hs fuel f m hm
  · obtain ⟨addr, haddr, hsteps⟩ := selectedSpAddress_steps env t h hs
    exact ⟨addr, hsteps, haddr, h.readWord_eq haddr (s.toWords_spEl s.spIndex) rfl⟩
  · obtain ⟨addr, haddr, hsteps⟩ := currentBankAddress_steps env t h hs
    exact ⟨addr, hsteps, haddr, h.readWord_eq haddr (s.toWords_elrEl _) rfl,
      h.readWord_eq haddr (s.toWords_spsrEl _) rfl⟩

/-- A function that sets the level and the masks from a word with all bits set. -/
def raising : Ir.Function :=
  ⟨0, #[], .body [.mov .w64 .el (.imm 0xffffffffffffffff), .mov .w64 .daif (.imm 0xffffffffffffffff),
    .ret (.imm 0)]⟩

/-- A host that does nothing. -/
def idle : Interp.Services Unit := ⟨fun _ => pure 0, pure ()⟩

/-- An image of zeros that fills memory. -/
def blank : Activation Unit := ⟨#[.i32 0], ⟨Bytes.zeros State.byteSize, ()⟩⟩

/-- Zero bytes are zero words. -/
lemma readWord_zeros (size i count : Nat) : Bytes.readWord (Bytes.zeros size) i count = 0 := by
  induction count generalizing i with
  | zero => rfl
  | succ count ih =>
    rw [Bytes.readWord, Bytes.get_zeros, ih]
    rfl

theorem normalized_always_raising :
    (EStateM.after (Interp.invoke idle 1 raising ⟨.reset, .zeroed 0, ()⟩)).cpu.Normalized ∧
      ∃ addr : UInt32, Steps (ε := Empty) ⟨[], ⟨fun _ _ => pure 0, fun _ _ => pure 0,
        fun _ => pure ()⟩⟩ Codegen.selectedSpAddress [] blank [.i32 addr] blank ∧ addr.toNat = 0 := by
  obtain ⟨hreset, -, hinvoke, haddress⟩ := normalized_always
  refine ⟨hinvoke idle ⟨fun _ _ h => h, fun _ h => h⟩ 1 raising _ hreset, ?_⟩
  have hsize : (Bytes.zeros State.byteSize).size = State.byteSize := Bytes.size_zeros _
  have hstate : State.readImage (Bytes.zeros State.byteSize) 0 =
      State.ofWords (Vector.ofFn fun _ => 0) := by
    simp only [State.readImage, readWord_zeros]
  have hsees : Sees blank 0 (State.ofWords (Vector.ofFn fun _ => 0)) := by
    refine ⟨rfl, ?_, ?_, ?_⟩
    · rw [blank, hsize, UInt32.toNat_zero, Nat.zero_add]
    · rw [blank, hsize]
      decide
    · simp only [blank, UInt32.toNat_zero, hstate]
  have hnormalized : (State.ofWords (Vector.ofFn fun _ => 0)).Normalized :=
    ⟨fun f => .inl ((State.getElem_run _ (by decide) f.index.isLt).trans (Vector.getElem_ofFn _)),
      by simp [State.ofWords], by simp [State.ofWords], by simp [State.ofWords]⟩
  obtain ⟨⟨addr, hsteps, haddr, -⟩, -⟩ := haddress _ blank 0 _ [] hsees hnormalized
  exact ⟨addr, hsteps, haddr⟩

end Dynarec.Wasm
