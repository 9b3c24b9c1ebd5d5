import Dynarec.Proofs.Compiler.Total
import Dynarec.Proofs.Flat.Blocks

/-!
# Functions on the flat machine

A run of a function goes from block to block, and each takes the flat machine from its address to that of the next one.
So a function that returns takes the flat machine from its own address to the one that it returns to, whatever form it
has been brought into.
-/

namespace Dynarec.Compiler

open Dynarec.Flow (Exit takeExit charge)
open Interp (Frame Services observer observe observeOps)
open Ir (Op Operand Ty)
open Linking (Code Slots)

variable {H : Type} {mem : Memory} {words : List UInt64} {slots : Slots Code} {good : H → Prop}
  {I : Machine H → Prop} {noting : Memory → H → H} {s : Services H} {T : Array Ty} {f f' : Frame H}

lemma sequential_observer (noting : Memory → H → H) (s : Services H) (types : Array Ty) :
    Sequential (observer noting s types) :=
  ⟨Interp.observeOps_append, Interp.observeOps_ne_none⟩

/-! ### From block to block -/

/-- The exit that is taken is that of the first way out whose condition holds. -/
lemma takeExit_exitTo {blockOf : Std.HashMap UInt64 Nat} {exits : Exits} {k : Nat} {x : Exit Operand}
    (h : takeExit (observer noting s T) k (exits.map (exitTo blockOf)) f = .ok (some x) f') :
    f' = f ∧ ∃ e ∈ exits, exits.target f = some e.2 ∧ x.target = blockOf.getD e.2 0 := by
  induction exits with
  | nil => cases h
  | cons e rest ih =>
    obtain ⟨_ | c, a⟩ := e
    · cases h
      exact ⟨rfl, _, List.mem_cons_self, rfl, rfl⟩
    · have hfirst : takeExit (observer noting s T) k (((some c, a) :: rest).map (exitTo blockOf)) f =
          if f.read c != 0 then .ok (some (exitTo blockOf (some c, a))) f
          else takeExit (observer noting s T) k (rest.map (exitTo blockOf)) f := by
        refine (EStateM.bind_ok (rfl : (observer noting s T).test c f = .ok (f.read c != 0) f)).trans ?_
        split <;> rfl
      rw [hfirst] at h
      rw [Exits.target]
      split at h
      · next hc =>
        cases h
        exact ⟨rfl, _, List.mem_cons_self, if_pos hc, rfl⟩
      · next hc =>
        obtain ⟨hf, e, he, htarget⟩ := ih h
        rw [if_neg hc]
        exact ⟨hf, e, List.mem_cons_of_mem _ he, htarget⟩

/-- Charging jumps back changes nothing of the core and the memory. -/
lemma charge_keeps (hs : Flat.Serves mem words slots good I noting s) {k : Nat}
    (h : charge (observer noting s T).backEdge k f = .ok () f') (hgood : good f'.machine.host) :
    good f.machine.host ∧ f'.locals = f.locals ∧
      (I f.machine → I f'.machine ∧ ∀ a, f'.machine.flat a = f.machine.flat a) := by
  induction k generalizing f with
  | zero =>
    cases h
    exact ⟨hgood, rfl, fun hI => ⟨hI, fun _ => rfl⟩⟩
  | succ k ih =>
    obtain ⟨⟨⟩, f₁, htick, hrest⟩ := EStateM.of_bind_ok
      (h : (Interp.onMachine s.tick >>= fun _ => charge (observer noting s T).backEdge k) f = .ok () f')
    obtain ⟨hgood₁, hlocals, hkeep⟩ := ih hrest
    obtain ⟨m, locals⟩ := f
    replace htick : Interp.onMachine s.tick ⟨m, locals⟩ = .ok () f₁ := htick
    cases hm : s.tick m with
    | error e m₁ =>
      rw [Interp.onMachine_error hm] at htick
      cases htick
    | ok u m₁ =>
      rw [Interp.onMachine_ok hm] at htick
      cases htick
      refine ⟨hs.tick (by rwa [hm]), hlocals, fun hI => ?_⟩
      obtain ⟨hI₁, hcpu, hmem⟩ := hs.ticked hI hm hgood₁
      obtain ⟨hI', hflat⟩ := hkeep hI₁
      refine ⟨hI', fun a => (hflat a).trans ?_⟩
      simp only [Machine.flat, hcpu, hmem]

section
variable {d : Discovery} {g : Flow.Graph (List Op) Operand} (hs : Flat.Serves mem words slots good I noting s)
  (hd : d.Regular []) (hcarried : d.Carried mem words slots) (hg : d.Connected g)
include hs hcarried hg

/-- The body of a block lands where one of its ways out leads. -/
lemma runBody_lands {a : UInt64} {n : Nat} (ha : d.blockOf[a]? = some n) :
    ∃ exits, (n, a, exits) ∈ d.found.toList ∧ ∀ {f f' : Frame H} {r : Option UInt64},
      g.runBody (observer noting s d.scratch.types) n f = .ok r f' → good f'.machine.host →
        good f.machine.host ∧
          (I f.machine → f.locals.size = d.scratch.types.size → Lands I a exits f r f') := by
  obtain ⟨exits, ops, hfound, hops, hcarries⟩ := hcarried a n ha
  refine ⟨exits, hfound, fun {f f' r} hrun hgood => ?_⟩
  rw [runBody_of_bodyAt ((hg.bodies n).trans hops)] at hrun
  have hback := Interp.observeOps_back hs.toBackward d.scratch.types ops f
  rw [show observeOps noting s d.scratch.types ops f = _ from hrun] at hback
  exact ⟨hback hgood, fun hI hsize => hcarries hs (.refl _) hsize hI hrun hgood⟩

include hd

/-- A run of the graph of a function from the block of an address takes the flat machine from the address to where the
run returns to. -/
lemma ends_reaches {block n k : Nat} {ticks : Nat → Nat → Nat}
    {r : EStateM.Result (Halt Error) (Frame H) (Option UInt64)}
    (h : (g.setEntry block).Ends (observer noting s d.scratch.types) ticks n k f r) {v : UInt64}
    (hr : r = .ok (some v) f') (hgood : good f'.machine.host) {a : UInt64} (ha : d.blockOf[a]? = some n) :
    good f.machine.host ∧ (I f.machine → f.locals.size = d.scratch.types.size →
      I f'.machine ∧ Flat.Reaches (f.machine.flat a) (f'.machine.flat v)) := by
  induction h generalizing a with
  | error | fellOff | charged => cases hr
  | returned hp =>
    cases hr
    obtain ⟨exits, -, hbody⟩ := runBody_lands hs hcarried hg ha
    obtain ⟨r, f₁, hrun, hrest⟩ := EStateM.of_bind_ok hp
    cases r with
    | none =>
      obtain ⟨o, f₂, -, hrest⟩ := EStateM.of_bind_ok hrest
      cases hrest
    | some value =>
      cases hrest
      obtain ⟨hgood₀, hland⟩ := hbody hrun hgood
      exact ⟨hgood₀, fun hI hsize => ⟨(hland hI hsize).inv, (hland hI hsize).reaches v rfl⟩⟩
  | step hp hc _ ih =>
    obtain ⟨exits, hfound, hbody⟩ := runBody_lands hs hcarried hg ha
    obtain ⟨r, f₁, hrun, hrest⟩ := EStateM.of_bind_ok hp
    cases r with
    | some value => cases hrest
    | none =>
      obtain ⟨o, f₂, hexit, hrest⟩ := EStateM.of_bind_ok hrest
      cases hrest
      -- the exit that is taken leads to the block of the address where the body lands
      rw [show (g.setEntry block).exits _ = _ from hg.exits _ hfound] at hexit
      obtain ⟨rfl, e, he, htarget, hblock⟩ := takeExit_exitTo hexit
      have hnext := exists_getElem?_of_contains (hd.taken _ hfound e he)
      rw [← hblock] at hnext
      obtain ⟨hgood₂, hreach⟩ := ih hr hnext
      obtain ⟨hgood₁, hlocals, hkeep⟩ := charge_keeps hs hc hgood₂
      obtain ⟨hgood₀, hland⟩ := hbody hrun hgood₁
      refine ⟨hgood₀, fun hI hsize => ?_⟩
      have hland := hland hI hsize
      obtain ⟨hI₂, hflat⟩ := hkeep hland.inv
      obtain ⟨hI', hreach⟩ := hreach hI₂ ((congrArg Array.size hlocals).trans ((hland.size rfl).trans hsize))
      rw [hflat] at hreach
      exact ⟨hI', (hland.reaches e.2 htarget).trans hreach⟩

end

/-! ### Functions that are built -/

/-- A function that is built from a memory and returns takes the flat machine from its address to where it returns to,
as long as memory has the words that were fetched for it. -/
theorem build_reaches {entry : UInt64} {c c' : Compiler} {fn : Ir.Function} (h : build entry mem c = .ok fn c')
    (hs : Flat.Serves mem (fetched entry mem c) c'.slots good I noting s) {fuel : Nat} {m m' : Machine H} {v : UInt64}
    (hI : I m) (hrun : observe noting s fuel fn m = .ok v m') (hgood : good m'.host) :
    I m' ∧ Flat.Reaches (m.flat entry) (m'.flat v) := by
  rw [build_eq] at h
  have hcompletes := discover_completes mem entry (2 * c.config.maxBlocks + 2) (regular_start [entry]) c
  cases hd : discover mem entry (2 * c.config.maxBlocks + 2) [entry] .start c with
  | error e c₁ =>
    rw [hd] at h
    cases h
  | ok d c₁ =>
    rw [hd] at h hcompletes
    obtain ⟨hregular, -, htaken⟩ := hcompletes
    have hcarried := discover_carried (regular_start [entry]) (carried_start mem [] c.slots) hd
    obtain ⟨g, hconnected⟩ := hregular.exists_connected
    obtain ⟨_, block, hlink, hblock, hwhole⟩ := hregular.whole (htaken entry List.mem_cons_self)
    cases hconnected.linked.symm.trans hlink
    obtain ⟨x, hx, hends⟩ := hwhole.ends c.config
    have hassemble : assemble c.config entry d = .ok ⟨entry, d.scratch.types, x⟩ := by
      rw [assemble_eq, hlink]
      simp only [hblock, hx]
    dsimp only at h
    rw [hassemble] at h
    cases h
    -- the walk of the form is a run of the graph from the block of the entry
    unfold observe Interp.finish at hrun
    dsimp only at hrun
    cases hwalk : x.walk (observer noting s d.scratch.types) fuel ⟨m, .replicate d.scratch.types.size 0⟩ with
    | error e f =>
      rw [hwalk] at hrun
      cases hrun
    | ok r f =>
      rw [hwalk] at hrun
      cases r with
      | none => cases hrun
      | some value =>
        cases hrun
        have hv := sequential_observer noting s d.scratch.types
        have hend := (hends hv _ (.ok (some v) f)).1 ⟨trivial, fuel, hwalk⟩
        obtain ⟨-, hreach⟩ := ends_reaches hs hregular hcarried hconnected hend rfl hgood hblock
        exact hreach hI Array.size_replicate

end Dynarec.Compiler
