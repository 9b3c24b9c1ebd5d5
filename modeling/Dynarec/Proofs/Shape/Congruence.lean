import Dynarec.Proofs.Run
import Dynarec.Proofs.Shape.Map

/-!
# Relations that walks keep

Much of what is told of a run, or of two runs next to each other, is kept when one thing is done after
another: that more fuel changes nothing, that a property of the state is maintained, that two runs go
the same way. Whatever such a relation holds of in the bodies and tests of two visitors, and in the
loops around them, it holds of in their walks.
-/

namespace Dynarec.Shape

variable {B C ε σ τ : Type} (K : Run.Congruence ε σ τ) {fuel fuel' : Nat}

section
variable {back : Run ε σ Unit} {back' : Run ε τ Unit} {label : Nat}
  {inner : Nat → Run ε σ (Control × Nat)} {inner' : Nat → Run ε τ (Control × Nat)}

/-- One round of a loop: what is done for the next one hangs on the relation alone. -/
lemma round_rel (hback : K.Rel back back') (hinner : ∀ d, K.Rel (inner d) (inner' d))
    (hrest : ∀ d, K.Rel (iterate back label inner fuel d) (iterate back' label inner' fuel' d))
    (d : Nat) :
    K.Rel (iterate back label inner (fuel + 1) d) (iterate back' label inner' (fuel' + 1) d) := by
  unfold iterate
  apply K.bind (hinner d)
  rintro ⟨c, d'⟩
  by_cases hc : c = .jump label
  · simp only [hc, if_true]
    exact K.bind hback fun _ => hrest d'
  · simp only [hc, if_false]
    exact K.pure _

/-- Loops with the same fuel are related if reaching the bound is. -/
lemma iterate_rel (hfuel : K.Rel (throw .outOfFuel : Run ε σ (Control × Nat)) (throw .outOfFuel))
    (hback : K.Rel back back') (hinner : ∀ d, K.Rel (inner d) (inner' d)) (d : Nat) :
    K.Rel (iterate back label inner fuel d) (iterate back' label inner' fuel d) := by
  induction fuel generalizing d with
  | zero => exact hfuel
  | succ fuel ih => exact round_rel K hback hinner ih d

end

variable {v : Visitor B C ε σ} {w : Visitor B C ε τ}

/-- Loops whose insides are related are related. -/
def LoopsRel (v : Visitor B C ε σ) (w : Visitor B C ε τ) (fuel fuel' : Nat) : Prop :=
  ∀ label inner inner', (∀ d, K.Rel (inner d) (inner' d)) →
    ∀ d, K.Rel (iterate v.backEdge label inner fuel d) (iterate w.backEdge label inner' fuel' d)

variable {K}

mutual

lemma run_rel (hloops : LoopsRel K v w fuel fuel') : {x : Shape B C} →
    x.All (fun b => K.Rel (v.body b) (w.body b)) (fun c => K.Rel (v.test c) (w.test c)) →
      ∀ d, K.Rel (x.run v fuel d) (x.run w fuel' d)
  | .seq items, h, d => by
    rw [All] at h
    rw [run, run]
    exact runList_rel hloops h d
  | .body b, h, d => by
    rw [All] at h
    rw [run, run]
    apply K.bind h
    intro r
    cases r <;> exact K.pure _
  | .block label inner, h, d => by
    rw [All] at h
    rw [run, run]
    exact K.bind (run_rel hloops h d) fun _ => K.pure _
  | .loop label inner, h, d => by
    rw [All] at h
    rw [run, run]
    exact hloops label _ _ (run_rel hloops h) d
  | .cond (.cond c) yes no, h, d => by
    rw [All] at h
    rw [run, run]
    apply K.bind h.1
    intro b
    cases b with
    | true => exact run_rel hloops h.2.1 d
    | false => exact run_rel hloops h.2.2 d
  | .cond (.dispatchIs id) yes no, h, d => by
    rw [All] at h
    rw [run, run]
    split
    · exact run_rel hloops h.1 d
    · exact run_rel hloops h.2 d
  | .br label, _, d => by
    rw [run, run]
    exact K.pure _
  | .setDispatch id, _, d => by
    rw [run, run]
    exact K.pure _

lemma runList_rel (hloops : LoopsRel K v w fuel fuel') : {items : List (Shape B C)} →
    AllOf (fun b => K.Rel (v.body b) (w.body b)) (fun c => K.Rel (v.test c) (w.test c)) items →
      ∀ d, K.Rel (runList v fuel items d) (runList w fuel' items d)
  | [], _, d => by
    rw [runList, runList]
    exact K.pure _
  | x :: rest, h, d => by
    rw [AllOf] at h
    rw [runList, runList]
    apply K.bind (run_rel hloops h.1 d)
    rintro ⟨c, d'⟩
    cases c with
    | next => exact runList_rel hloops h.2 d'
    | jump label => exact K.pure _
    | ret value => exact K.pure _

end

/-- Walks are related when the bodies, the tests and the loops of their visitors are. -/
theorem walk_rel (hloops : LoopsRel K v w fuel fuel') {x : Shape B C}
    (h : x.All (fun b => K.Rel (v.body b) (w.body b)) (fun c => K.Rel (v.test c) (w.test c))) :
    K.Rel (x.walk v fuel) (x.walk w fuel') := by
  unfold walk
  apply K.bind (run_rel hloops h 0)
  rintro ⟨c, d⟩
  cases c <;> exact K.pure _

end Dynarec.Shape
