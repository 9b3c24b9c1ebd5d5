import Dynarec.Proofs.Flow.Coalesce
import Dynarec.Proofs.Flow.Scoped

/-!
# Runs that return

When every reachable block has an exit to go on by or returns in its body, a run of the graph never
comes to an end without a value, and neither does a walk of its structured form, whether chains have
been merged before or not.
-/

namespace Dynarec.Flow.Graph

open Shape (Visitor)

variable {B C ε σ : Type} {g : Graph B C} {v : Visitor B C ε σ} {ticks : Nat → Nat → Nat}
  {n d : Nat} {s s' : σ} {r : EStateM.Result (Halt ε) σ (Option UInt64)}

/-- Of exits that are complete one is taken. -/
lemma takeExit_ne_none {exits : List (Exit C)} (h : Complete exits) :
    takeExit v d exits s ≠ .ok none s' := by
  induction h generalizing s with
  | @last e he =>
    intro h
    simp only [takeExit, he] at h
    cases h
  | @test e t rest ht _ ih =>
    intro h
    rcases t with ⟨c⟩ | ⟨id⟩ <;> simp only [takeExit, ht] at h
    · obtain ⟨b, s₁, _, h⟩ := EStateM.of_bind_ok h
      cases b
      · exact ih h
      · cases h
    · split at h
      · cases h
      · exact ih h

/-- A block that proceeds is not left without an exit. -/
lemma Proceeds.pick_ne (h : g.Proceeds v n) : g.pick v n d s ≠ .ok (.inr none) s' := by
  intro hp
  unfold pick at hp
  obtain ⟨x, s₁, hbody, hp⟩ := EStateM.of_bind_ok hp
  cases x with
  | some value => cases hp
  | none =>
    obtain ⟨o, s₂, htake, hp⟩ := EStateM.of_bind_ok hp
    cases hp
    rcases h with h | ⟨-, hret⟩
    · exact takeExit_ne_none h htake
    · exact hret s s₁ hbody

/-- A run through blocks that proceed does not end without a value. -/
lemma Ends.ne_none (h : g.Ends v ticks n d s r)
    (hproc : ∀ t, g.Leads n t → g.Proceeds v t) : r ≠ .ok none s' := by
  induction h with
  | error hp => exact nofun
  | returned hp => exact nofun
  | fellOff hp => exact absurd hp (hproc _ .refl).pick_ne
  | charged hp hc => exact nofun
  | step hp hc _ ih =>
    exact ih fun t ht => hproc t (.head (edge_of_mem (mem_of_pick hp)) ht)

/-- A graph from which a structured form is made whose walks do not come to their end when blocks
without exits return. -/
def Returning (g : Graph B C) (returns : ∀ {ε σ : Type}, Visitor B C ε σ → Prop) : Prop :=
  ∃ x, g.structurize = .ok x ∧ x.Scoped [] ∧ ∀ {ε σ : Type} (v : Visitor B C ε σ), returns v →
    ∀ fuel s s', x.walk v fuel s ≠ .ok none s'

lemma returning_of_validate (hval : g.validate = .ok ()) (hplain : g.Plain) :
    g.Returning g.Returns := by
  obtain ⟨x, hx, hends⟩ := structurize_ends hval hplain
  refine ⟨x, hx, structurize_scoped hx, fun v hret fuel s s' hwalk => ?_⟩
  obtain ⟨hg, hexits⟩ := validate_eq_ok hval
  have hproc : ∀ t, g.Leads g.entry t → g.Proceeds v t := fun t ht => by
    rcases hexits t with hnil | hc
    · exact .inr ⟨hnil, hret t ht hnil⟩
    · exact .inl hc
  have hfinishes : Run.Finishes (x.walk v ·) s (.ok none s') := ⟨trivial, fuel, hwalk⟩
  exact ((hends v hret s _).1 hfinishes).ne_none hproc rfl

/-- So do walks after chains have been merged, for visitors that run joined bodies one after the
other. -/
lemma returning_coalesce (hval : g.validate = .ok ()) (hplain : g.Plain) (hbodied : g.Bodied)
    (join : B → B → B) :
    (g.coalesce join).Returning fun v => Joins v join ∧ g.Returns v := by
  obtain ⟨hg, hexits⟩ := validate_eq_ok hval
  have hm := merged_coalesce hg hplain hbodied hexits join
  obtain ⟨x, hx, hscoped, h⟩ :=
    returning_of_validate (validate_of_complete hm.inRange hm.complete) hm.plain
  exact ⟨x, hx, hscoped, fun v hv => h v (hm.returns v hv.1 hv.2)⟩

end Dynarec.Flow.Graph
