import Dynarec.Shape.Basic

/-!
# Running shapes

A visitor gives meaning to the bodies and the conditions of a shape on some state, and is told of
every jump back to the start of a loop. A run is bounded: a loop that would start again more often
than the fuel allows stops the run, which is told apart from an error of the visitor.
-/

namespace Dynarec

/-- Why a run stops before its end: with an error, or because its bound is reached. -/
inductive Halt (ε : Type) where
  | error (e : ε)
  | outOfFuel
  deriving DecidableEq, Repr

/-- A bounded run on a state, which is kept when the run stops. -/
abbrev Run (ε σ α : Type) : Type := EStateM (Halt ε) σ α

/-- Stop a run with an error. -/
@[inline] def Run.fail {ε σ α : Type} (e : ε) : Run ε σ α := throw (.error e)

namespace Shape

/-- The meaning of bodies and conditions. A body may return a value and so end the run. -/
structure Visitor (B C ε σ : Type) where
  body : B → Run ε σ (Option UInt64)
  test : C → Run ε σ Bool
  backEdge : Run ε σ Unit

/-- How control leaves a shape: at its end, by a jump to a label, or by returning a value. -/
inductive Control where
  | next
  | jump (label : Nat)
  | ret (value : UInt64)
  deriving DecidableEq, Repr

variable {B C ε σ : Type}

/-- Run the inside of a loop, starting from a value of the dispatch variable, until it is left. -/
def iterate (backEdge : Run ε σ Unit) (label : Nat) (inner : Nat → Run ε σ (Control × Nat)) :
    Nat → Nat → Run ε σ (Control × Nat)
  | 0, _ => throw .outOfFuel
  | fuel + 1, dispatch => do
    let (c, dispatch) ← inner dispatch
    if c = .jump label then
      backEdge
      iterate backEdge label inner fuel dispatch
    else return (c, dispatch)

mutual

/-- Run a shape from a value of the dispatch variable; gives how it is left and the variable's
value then. -/
def run (v : Visitor B C ε σ) (fuel : Nat) : Shape B C → Nat → Run ε σ (Control × Nat)
  | .seq items, dispatch => runList v fuel items dispatch
  | .body b, dispatch => do
    match ← v.body b with
    | some value => return (.ret value, dispatch)
    | none => return (.next, dispatch)
  | .block label inner, dispatch => do
    let (c, dispatch) ← run v fuel inner dispatch
    return (if c = .jump label then .next else c, dispatch)
  | .loop label inner, dispatch =>
    iterate v.backEdge label (fun dispatch => run v fuel inner dispatch) fuel dispatch
  | .cond (.cond c) ifTrue ifFalse, dispatch => do
    if ← v.test c then run v fuel ifTrue dispatch else run v fuel ifFalse dispatch
  | .cond (.dispatchIs id) ifTrue ifFalse, dispatch =>
    if dispatch = id then run v fuel ifTrue dispatch else run v fuel ifFalse dispatch
  | .br label, dispatch => return (.jump label, dispatch)
  | .setDispatch id, _ => return (.next, id)

/-- Run shapes one after the other as long as each is left at its end. -/
def runList (v : Visitor B C ε σ) (fuel : Nat) : List (Shape B C) → Nat → Run ε σ (Control × Nat)
  | [], dispatch => return (.next, dispatch)
  | s :: rest, dispatch => do
    match ← run v fuel s dispatch with
    | (.next, dispatch) => runList v fuel rest dispatch
    | left => return left

end

/-- Run a shape from its start; `none` when no body returned a value. -/
def walk (v : Visitor B C ε σ) (fuel : Nat) (s : Shape B C) : Run ε σ (Option UInt64) := do
  match ← run v fuel s 0 with
  | (.ret value, _) => return some value
  | _ => return none

end Shape

end Dynarec
