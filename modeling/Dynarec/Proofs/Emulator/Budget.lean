import Dynarec.Proofs.Compiler.Discovery
import Dynarec.Proofs.Emulator.Serve

/-!
# Runs with a loop budget

A run of guest code whose jumps back are limited always ends, whatever memory holds and whatever has
been compiled. Every call takes one level of nesting, which is limited, and every other round of a
loop takes one jump back from the budget, which all functions of the run share. So the fuel that a
run needs is known before it starts.
-/

namespace Dynarec.Emulator

open Run (Steady Shrinks Stopped)

/-- A host whose calls nest `depth` deep and may nest `limit` deep, with no more than `most` jumps
back left. -/
structure Within (limit depth most : Nat) (h : Host) : Prop where
  limit : h.compiler.config.maxDepth = limit
  depth : h.depth = depth
  budget : ∃ left ≤ most, h.budget = some left

/-- The jumps back that are left. -/
def left (h : Host) : Nat := h.budget.getD 0

variable {limit depth most : Nat}

lemma compile_steady (pc : UInt64) :
    Steady (fun m => Within limit depth most m.host) (fun m => left m.host) (compile pc) := by
  rintro ⟨cpu, mem, compiler, d, budget⟩ h
  have hsetup := Compiler.compile_sameSetup pc mem compiler
  simp only [compile]
  cases hc : Compiler.compile pc mem compiler with
  | error e c' => exact ⟨trivial, fun a s' ha => by cases ha⟩
  | ok code c' =>
    refine ⟨trivial, fun a s' ha => ?_⟩
    cases ha
    rw [hc] at hsetup
    exact ⟨⟨(congrArg Config.maxDepth hsetup.2).trans h.limit, h.depth, h.budget⟩, Nat.le_refl _⟩

lemma resolve_steady (request : Interp.Request) :
    Steady (fun m => Within limit depth most m.host) (fun m => left m.host) (resolve request) := by
  cases request with
  | jump pc => exact compile_steady pc
  | call slot =>
    intro m hm
    simp only [resolve]
    split
    · refine ⟨trivial, fun a s' ha => ?_⟩
      cases ha
      exact ⟨hm, Nat.le_refl _⟩
    · next entry _ => exact compile_steady entry m hm
    · exact ⟨trivial, fun a s' ha => by cases ha⟩
    · exact ⟨trivial, fun a s' ha => by cases ha⟩

lemma tick_shrinks :
    Shrinks (fun m => Within limit depth most m.host) (fun m => left m.host) tick := by
  rintro ⟨cpu, mem, compiler, d, budget⟩ ⟨hlimit, hdepth, left, hle, rfl⟩
  cases left with
  | zero => exact ⟨trivial, fun a s' ha => by cases ha⟩
  | succ left =>
    refine ⟨trivial, fun a s' ha => ?_⟩
    cases ha
    exact ⟨⟨hlimit, hdepth, left, Nat.le_of_succ_le hle, rfl⟩, Nat.lt_succ_self _⟩

/-- Serving a request takes no more fuel than the levels of nesting and the jumps back that are left
together, and one more. -/
theorem serve_steady {fuel : Nat} (hfuel : limit - depth + most < fuel)
    (request : Interp.Request) :
    Steady (fun m => Within limit depth most m.host) (fun m => left m.host)
      (serve fuel request) := by
  induction fuel generalizing depth most request with
  | zero => omega
  | succ fuel ih =>
    rw [serve_succ]
    apply (resolve_steady request).bind
    intro code m hm
    unfold runCode
    by_cases hdepth : m.host.compiler.config.maxDepth ≤ m.host.depth
    · rw [if_pos hdepth]
      exact ⟨trivial, fun a s' ha => by cases ha⟩
    · rw [if_neg hdepth]
      -- one level deeper the fuel that is left is enough, for the calls and for the loops
      rw [hm.limit, hm.depth] at hdepth
      have hinvoke : Steady (fun m => Within limit (depth + 1) most m.host) (fun m => left m.host)
          (Interp.invoke ⟨serve fuel, tick⟩ fuel code.function) := by
        apply Interp.invoke_steady (s := ⟨serve fuel, tick⟩)
          ⟨fun r => ih (by omega) r, tick_shrinks⟩
        rintro h ⟨-, -, l, hle, hl⟩
        simp only [left, hl, Option.getD_some]
        omega
      have hdeeper : Within limit (depth + 1) most m.deeper.host :=
        ⟨hm.limit, congrArg (· + 1) hm.depth, hm.budget⟩
      obtain ⟨hstop, hok⟩ := hinvoke m.deeper hdeeper
      cases hr : Interp.invoke ⟨serve fuel, tick⟩ fuel code.function m.deeper with
      | error e m' =>
        rw [hr] at hstop
        exact ⟨Run.stopped_error hstop, fun a s' ha => by cases ha⟩
      | ok value m' =>
        obtain ⟨hm', hle⟩ := hok value m' hr
        refine ⟨trivial, fun a s' ha => ?_⟩
        cases ha
        refine ⟨⟨hm'.limit, ?_, hm'.budget⟩, hle⟩
        change m'.host.depth - 1 = depth
        rw [hm'.depth, Nat.add_sub_cancel]

/-- Every request that is made of a host with a budget is served to its end, with the fuel that the
levels of nesting and the jumps back that are left need. -/
lemma serve_ends {m : Emulator} {n : Nat} (hbudget : m.host.budget = some n)
    (request : Interp.Request) : ∃ r, Stopped r ∧
      ∀ fuel, m.host.compiler.config.maxDepth - m.host.depth + n < fuel →
        serve fuel request m = r := by
  have hwithin : Within m.host.compiler.config.maxDepth m.host.depth n m.host :=
    ⟨rfl, rfl, n, Nat.le_refl _, hbudget⟩
  have hstop := (serve_steady (Nat.lt_succ_self _) request m hwithin).1
  exact ⟨_, hstop, fun fuel hfuel => serve_below hfuel request m hstop⟩

end Dynarec.Emulator
