import Dynarec.Proofs.Compiler.Computes
import Dynarec.Proofs.Flat.Machine
import Dynarec.Proofs.Interp.Alike

/-!
# Hosts that serve as the flat machine runs

Compiled code is compared with the flat machine for any host that serves its requests as the flat machine runs the
functions that are asked for. Operations carry out the instructions from an address on if a run of them, whatever
the host, leads the flat machine to where it returns to or to where the first way out leads whose condition holds.
-/

namespace Dynarec

open Interp (Frame Services observeOps)
open Ir (Op Ty)
open Linking (Code Slots)

variable {H : Type}

/-- The core and the memory of a machine that is at an address. -/
def Machine.flat (m : Machine H) (pc : UInt64) : Flat := ⟨pc, m.cpu, m.mem⟩

namespace Flat

/-- A host that serves code compiled from the words of some addresses in a memory, linked to some slots. What holds of
the machine before a request holds after it, as long as what is noted is good; then memory has the words, and the
flat machine has come from the function that is asked for to where it returns to. -/
structure Serves (mem : Memory) (words : List UInt64) (slots : Slots Code) (good : H → Prop) (I : Machine H → Prop)
    (noting : Memory → H → H) (s : Services H) : Prop extends s.Backward good noting where
  agree {m : Machine H} : I m → good m.host → Compiler.Agree words mem m.mem
  write {m : Machine H} (cpu : Cpu.State) : I m → I ⟨cpu, m.mem, m.host⟩
  stored {m : Machine H} {addr value : UInt64} {size : AccessSize} {mem' : Memory} : I m →
    Memory.write addr size value m.mem = .ok () mem' → good (noting mem' m.host) →
    I ⟨m.cpu, mem', noting mem' m.host⟩
  call {m m' : Machine H} {a v : UInt64} {slot : Nat} : slots.ofAddr[a]? = some slot → I m →
    s.request (.call slot) m = .ok v m' → good m'.host → I m' ∧ Reaches (m.flat a) (m'.flat v)
  jump {m m' : Machine H} {a v : UInt64} : I m → s.request (.jump a) m = .ok v m' → good m'.host →
    I m' ∧ Reaches (m.flat a) (m'.flat v)
  ticked {m m' : Machine H} : I m → s.tick m = .ok () m' → good m'.host →
    I m' ∧ m'.cpu = m.cpu ∧ m'.mem = m.mem

/-- A host that serves code compiled from more words and linked to more slots. -/
lemma Serves.of_subset {mem : Memory} {words words' : List UInt64} {slots slots' : Slots Code} {good : H → Prop}
    {I : Machine H → Prop} {noting : Memory → H → H} {s : Services H} (h : Serves mem words slots good I noting s)
    (hwords : words' ⊆ words) (hslots : slots'.Extends slots) : Serves mem words' slots' good I noting s :=
  { h with
    agree := fun hI hgood pc hpc => h.agree hI hgood pc (hwords hpc)
    call := fun hslot => h.call (hslots _ _ hslot) }

end Flat

namespace Compiler

/-- Where the first way out leads whose condition holds. -/
def Exits.target (f : Frame H) : Exits → Option UInt64
  | [] => none
  | (none, a) :: _ => some a
  | (some c, a) :: rest => if f.read c != 0 then some a else target f rest

/-- A run from an address on, which returns or comes to the ways out: what holds of machines holds after it, and the
flat machine comes to where the run returns to, or to where a way out leads. -/
structure Lands (I : Machine H → Prop) (pc : UInt64) (exits : Exits) (f : Frame H) (r : Option UInt64) (g : Frame H) :
    Prop where
  inv : I g.machine
  size : r = none → g.locals.size = f.locals.size
  reaches : ∀ a, r.or (exits.target g) = some a → Flat.Reaches (f.machine.flat pc) (g.machine.flat a)

/-- Operations carry out the instructions from an address on, up to one of the ways out. -/
def Carries (mem : Memory) (words : List UInt64) (slots : Slots Code) (types : Array Ty) (pc : UInt64) (ops : List Op)
    (exits : Exits) : Prop :=
  ∀ {H : Type} {good : H → Prop} {I : Machine H → Prop} {noting : Memory → H → H} {s : Services H},
    Flat.Serves mem words slots good I noting s → ∀ {T : Array Ty} {f g : Frame H} {r : Option UInt64},
    Declares types T → f.locals.size = T.size → I f.machine → observeOps noting s T ops f = .ok r g →
    good g.machine.host → Lands I pc exits f r g

section
variable {mem : Memory} {words words' : List UInt64} {slots slots' : Slots Code} {types types' : Array Ty}
  {pc next : UInt64} {xs ys : List Op} {exits : Exits}

/-- There may be more words and slots, and more locals may be declared. -/
lemma Carries.mono (h : Carries mem words slots types pc xs exits) (hwords : words ⊆ words')
    (hslots : slots.Extends slots') (htypes : Declares types types') :
    Carries mem words' slots' types' pc xs exits :=
  fun hs _ _ _ _ hT => h (hs.of_subset hwords hslots) (htypes.trans hT)

/-- Operations are followed by those for the address that they come to. -/
lemma Carries.append (h : Carries mem words slots types pc xs [(none, next)])
    (h' : Carries mem words slots types next ys exits) : Carries mem words slots types pc (xs ++ ys) exits := by
  intro H good I noting s hs T f g r hT hsize hI hrun hgood
  rw [Interp.observeOps_append] at hrun
  obtain ⟨r₁, f₁, hfirst, hrest⟩ := EStateM.of_bind_ok hrun
  cases r₁ with
  | some v =>
    cases hrest
    have hland := h hs hT hsize hI hfirst hgood
    exact ⟨hland.inv, nofun, fun a ha => hland.reaches a (by simpa using ha)⟩
  | none =>
    -- what is noted by the first operations is good, as more is noted after them
    have hgood₁ : good f₁.machine.host := by
      apply Interp.observeOps_back hs.toBackward T ys f₁
      rwa [show observeOps noting s T ys f₁ = .ok r g from hrest]
    have hland := h hs hT hsize hI hfirst hgood₁
    have hland' := h' hs hT ((hland.size rfl).trans hsize) hland.inv hrest hgood
    refine ⟨hland'.inv, fun hr => (hland'.size hr).trans (hland.size rfl), fun a ha => ?_⟩
    exact (hland.reaches next rfl).trans (hland'.reaches a ha)

end

end Compiler

end Dynarec
