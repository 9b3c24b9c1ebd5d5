import Dynarec.Proofs.Flat.Instructions

/-!
# Blocks on the flat machine

What an instruction is compiled to between others is alike to what it is compiled to by itself, so it takes the flat
machine as far. One instruction after the other, the operations of a block carry out the instructions from its address
on, and so do those of every block that is found.
-/

namespace Dynarec.Compiler

open Interp (Frame observeOps)
open Ir (Op Ty)
open Linking (Code Slots)

variable {H : Type} {mem : Memory} {words : List UInt64} {f g : Frame H} {i : Instr}

/-- The ways in which a block may end in a phase are alike. -/
lemma Phase.Allows.terminators {D : Ir.Matching} {ops : List Op} {t t' : Option Terminator} {phase : Phase}
    (h : phase.Allows D ops t t') : Terminator.Alike D t t' := by
  cases phase with
  | plain =>
    obtain ⟨rfl, rfl, -⟩ := h
    exact .none
  | calling =>
    obtain ⟨rfl, rfl⟩ := h
    exact .none
  | returned =>
    obtain ⟨rfl, rfl, -⟩ := h
    exact .none
  | ended => exact h.1

lemma extends_of_asked {slots slots' : Slots Code} (h : slots.Asked slots') : slots.Extends slots' := by
  induction h with
  | refl => exact .refl _
  | tail _ hlast ih =>
    obtain ⟨addr, rfl⟩ := hlast
    exact ih.trans (Linking.Slots.extends_ask _ [addr])

/-- Ways out that are alike lead to one address from frames that coincide. -/
lemma Terminator.Alike.target {D : Ir.Matching} {t t' : Option Terminator} (h : Terminator.Alike D t t')
    {T T' : Array Ty} (hfg : Interp.Coincide T T' D f g) (next : UInt64) :
    (exitsOf t next).target f = (exitsOf t' next).target g := by
  cases h with
  | none | stop | always => rfl
  | branch hc =>
    simp only [exitsOf, Exits.target]
    rw [hfg.read hc]

/-- An instruction that is compiled into a block between instructions appends operations that carry it out. -/
theorem lower_carries {b b' : Block} (hi : instrOf b.word = some i) (hword : wordAt mem b.pc = some b.word)
    (hsettled : b.Settled) (hopen : b.terminator = none) (hb : lower i b = .ok () b') :
    b.slots.Extends b'.slots ∧ Declares b.scratch.types b'.scratch.types ∧
      ∃ xs, b'.ops.toList = b.ops.toList ++ xs ∧
        Carries mem [b.pc] b'.slots b'.scratch.types b.pc xs (exitsOf b'.terminator (b.pc + 4)) := by
  have hraise : ∀ kind imm, i ≠ .exception kind imm := by
    rintro kind imm rfl
    cases hb
  have hend := (Emits.lower hraise).agree b b b.alone (hsettled.alike hopen)
  rw [hb] at hend
  cases hsole : lower i b.alone with
  | error e b'' =>
    rw [hsole] at hend
    exact hend.elim
  | ok u b'' =>
    rw [hsole] at hend
    obtain ⟨Γ, -, halike⟩ := hend
    obtain ⟨xs, D, hxs, hops, -, hallow⟩ := halike.ops
    refine ⟨?_, halike.types, xs, hxs, ?_⟩
    · exact extends_of_asked halike.asked
    intro H good I noting s hs T f g r hT hsize hI hrun hgood
    have hcoincide : Interp.Coincide T b''.scratch.types (fun _ _ => False) f (fresh f.machine b''.scratch.types) :=
      Interp.coincide_start hsize Array.size_replicate
    have hends : Interp.EndsAlike T b''.scratch.types D (observeOps noting s T xs f)
        (observeOps noting s b''.scratch.types b''.ops.toList _) :=
      Interp.observeOps_alike (hops.types hT fun _ _ h => h) hcoincide
    rw [hrun] at hends
    cases hrun' : observeOps noting s b''.scratch.types b''.ops.toList (fresh f.machine b''.scratch.types) with
    | error e g' =>
      rw [hrun'] at hends
      exact hends.elim
    | ok r' g' =>
      rw [hrun'] at hends
      obtain ⟨rfl, hmachine, hlocals⟩ := hends
      have hgood₀ : good f.machine.host := by
        apply Interp.observeOps_back hs.toBackward T xs f
        rwa [hrun]
      have hland := sole_lands hs
        ⟨hi, hsole, (hs.agree hI hgood₀ b.pc List.mem_cons_self).symm.trans hword, hI, hrun', by rwa [hmachine]⟩
        (halike.slots ▸ Linking.Slots.Extends.refl _)
      refine ⟨hmachine ▸ hland.inv, fun hr => (hlocals hr).size.trans hsize.symm, fun a ha => ?_⟩
      have hreach := hland.reaches a
      rw [hmachine] at hreach
      apply hreach
      cases r' with
      | some v => exact ha
      | none => rwa [← hallow.terminators.target (hlocals rfl)]

/-- What more compiling makes of a block: further operations, which carry out the instructions from an address on. -/
structure Block.Continues (mem : Memory) (words : List UInt64) (pc : UInt64) (exits : Exits) (b b' : Block) : Prop where
  settled : b'.Settled
  slots : b.slots.Extends b'.slots
  types : Declares b.scratch.types b'.scratch.types
  ops : ∃ xs, b'.ops.toList = b.ops.toList ++ xs ∧ Carries mem words b'.slots b'.scratch.types pc xs exits

/-- Instructions are followed by those for the address that they come to. -/
lemma Block.Continues.trans {words₁ words₂ : List UInt64} {pc next : UInt64} {exits : Exits} {b b₁ b₂ : Block}
    (h : b.Continues mem words₁ pc [(none, next)] b₁) (h' : b₁.Continues mem words₂ next exits b₂) :
    b.Continues mem (words₁ ++ words₂) pc exits b₂ where
  settled := h'.settled
  slots := h.slots.trans h'.slots
  types := h.types.trans h'.types
  ops := by
    obtain ⟨xs, hxs, hcarries⟩ := h.ops
    obtain ⟨ys, hys, hcarries'⟩ := h'.ops
    refine ⟨xs ++ ys, by rw [hys, hxs, List.append_assoc], ?_⟩
    exact Carries.append (hcarries.mono (List.subset_append_left _ _) h'.slots h'.types)
      (hcarries'.mono (List.subset_append_right _ _) (.refl _) (.refl _))

/-- A word that is compiled carries out the instruction that it encodes. -/
lemma translateWord_continues {pc : UInt64} {b b' : Block} {u : Unit} (hb : b.Settled) (hopen : b.terminator = none)
    (h : translateWord mem pc b = .ok u b') : b.Continues mem [pc] pc (exitsOf b'.terminator (pc + 4)) b' := by
  have hleaves := translateWord_leaves mem pc hb hopen
  rw [h] at hleaves
  rw [translateWord_eq] at h
  cases hword : wordAt mem pc with
  | none =>
    rw [hword] at h
    cases h
  | some word =>
    rw [hword] at h
    dsimp only at h
    rw [lowerWord_eq] at h
    cases hi : instrOf word with
    | none =>
      rw [hi] at h
      cases h
    | some i =>
      rw [hi] at h
      obtain ⟨hslots, htypes, hops⟩ := lower_carries (b := { b with pc, word }) hi hword
        ⟨hb.valid, hb.free, hb.returns⟩ hopen h
      exact ⟨hleaves, hslots, htypes, hops⟩

/-- Words that are compiled one after the other carry out the instructions that they encode. -/
lemma translate_continues {known : UInt64 → Bool} {fuel : Nat} {pc next : UInt64} {b b' : Block} (hb : b.Settled)
    (hopen : b.terminator = none) (h : translate mem known fuel pc b = .ok next b') :
    b.Continues mem (translated mem known fuel pc b) pc (exitsOf b'.terminator next) b' := by
  induction fuel generalizing pc b with
  | zero => cases h
  | succ fuel ih =>
    rw [translate_succ] at h
    rw [translated]
    cases hw : translateWord mem pc b with
    | error e b₁ =>
      rw [hw] at h
      cases h
    | ok u b₁ =>
      have hfirst := translateWord_continues hb hopen hw
      rw [hw] at h
      dsimp only at h ⊢
      split at h
      · next hlast =>
        cases h
        rwa [if_pos hlast]
      · next hmore =>
        rw [if_neg hmore]
        have hopen₁ : b₁.terminator = none := by simpa using (not_or.1 hmore).1
        rw [hopen₁] at hfirst
        exact hfirst.trans (ih hfirst.settled hopen₁ h)

/-- The operations of a block carry out the instructions from its address on. -/
lemma translateBlock_continues {known : UInt64 → Bool} {start : UInt64} {b b' : Block} {exits : Exits}
    (hb : b.Settled) (hopen : b.terminator = none) (h : translateBlock mem known start b = .ok exits b') :
    b.Continues mem (blockWords mem known start b) start exits b' := by
  rw [translateBlock_eq] at h
  cases ht : translate mem known (mem.size + 1) start b with
  | error e b₁ =>
    rw [ht] at h
    cases h
  | ok next b₁ =>
    rw [ht] at h
    dsimp only at h
    split at h
    · cases h
    · cases h
      exact translate_continues hb hopen ht

/-! ### Blocks that are found -/

/-- Every block that has been found carries out the instructions from its address on. -/
def Discovery.Carried (mem : Memory) (words : List UInt64) (slots : Slots Code) (d : Discovery) : Prop :=
  ∀ (a : UInt64) (n : Nat), d.blockOf[a]? = some n → ∃ exits ops, (n, a, exits) ∈ d.found.toList ∧
    bodyAt d.graph n = some ops ∧ Carries mem words slots d.scratch.types a ops exits

lemma carried_start (mem : Memory) (words : List UInt64) (slots : Slots Code) :
    Discovery.start.Carried mem words slots := by
  intro a n h
  simp [Discovery.start] at h

variable {start : UInt64} {pending : List UInt64} {d d' : Discovery} {c c' : Compiler}

lemma discoverBlock_carried {exits : Exits} (hd : d.Regular pending) (hcarried : d.Carried mem words c.slots)
    (h : discoverBlock mem start d c = .ok (exits, d') c') :
    d'.Carried mem (words ++ blockWords mem d.blockOf.contains start (.start start d.scratch c.slots)) c'.slots := by
  have hsettled : (Block.start start d.scratch c.slots).Settled := ⟨hd.valid, hd.free, nofun⟩
  obtain ⟨b, hb, rfl, hslots'⟩ := discoverBlock_eq_ok h
  obtain ⟨-, hslots, htypes, xs, hxs, hcarries⟩ := translateBlock_continues hsettled rfl hb
  rw [hslots']
  intro a n hn
  rw [Std.HashMap.getElem?_insert] at hn
  split at hn
  · next heq =>
    -- the block that has just been found
    obtain rfl : start = a := by simpa using heq
    cases hn
    refine ⟨exits, xs, ?_, ?_, hcarries.mono (List.subset_append_right _ _) (.refl _) (.refl _)⟩
    · rw [Array.toList_push]
      exact List.mem_append_right _ List.mem_cons_self
    · have hops : b.ops.toList = xs := hxs
      exact hops ▸ bodyAt_addBlock_self _ _
  · obtain ⟨exits', ops, hfound, hops, hcarries'⟩ := hcarried a n hn
    refine ⟨exits', ops, ?_, ?_, hcarries'.mono (List.subset_append_left _ _) hslots htypes⟩
    · rw [Array.toList_push]
      exact List.mem_append_left _ hfound
    · exact (bodyAt_addBlock_of_ne (Nat.ne_of_lt (hd.inRange a n hn)) _).trans hops

/-- Every block of a function that is found carries out the instructions from its address on. -/
theorem discover_carried {entry : UInt64} {fuel : Nat} (hd : d.Regular pending)
    (hcarried : d.Carried mem words c.slots) (h : discover mem entry fuel pending d c = .ok d' c') :
    d'.Carried mem (words ++ discovered mem entry fuel pending d c) c'.slots := by
  induction fuel generalizing words pending d c with
  | zero => cases h
  | succ fuel ih =>
    cases pending with
    | nil =>
      cases h
      rwa [discovered, List.append_nil]
    | cons start pending =>
      rw [discover_cons] at h
      rw [discovered]
      split at h
      · next hknown =>
        rw [if_pos hknown]
        exact ih (hd.skip hknown) hcarried h
      · next hnew =>
        split at h
        · cases h
        · next hlimit =>
          rw [if_neg hnew, if_neg hlimit]
          cases hb : discoverBlock mem start d c with
          | error e c₁ =>
            rw [hb] at h
            cases h
          | ok r c₁ =>
            obtain ⟨exits, d₁⟩ := r
            rw [hb] at h
            rw [← List.append_assoc]
            exact ih (discoverBlock_regular hd hb) (discoverBlock_carried hd hcarried hb) h

end Dynarec.Compiler
