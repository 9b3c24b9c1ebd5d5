import Dynarec.Flow.Dispatch
import Dynarec.Flow.Dominance

/-!
# Placement

The structured form of a graph. The graph, made reducible, is laid out along its dominator tree: a
block that heads a loop opens a loop whose label exits go back to; a block that several forward
exits reach comes after a block construct whose label they leave; every other block stands where
its only forward exit is. Labels are numbered in the order in which constructs are opened.
-/

namespace Dynarec.Flow

/-- What a label does: start the loop that a block heads again, or go on with a block that follows
the construct. -/
inductive FrameKind where
  | loop
  | block
  deriving DecidableEq, Repr

/-- A construct around the place being filled: the block that its label leads to. -/
structure Frame where
  target : Nat
  kind : FrameKind
  label : Nat

/-- The next label, and which blocks have been placed. -/
structure Placing where
  nextLabel : Nat
  placed : Array Bool

/-- Placing blocks, with the errors that this can have. -/
abbrev PlaceM := StateT Placing (Except StructureError)

namespace Graph

variable {B C : Type}

/-- A label that no construct has yet. -/
def freshLabel : PlaceM Nat :=
  modifyGet fun s => (s.nextLabel, { s with nextLabel := s.nextLabel + 1 })

/-- Note that a block is placed; an error when it has been before. -/
def claim (v : Nat) : PlaceM Unit := do
  let s ← get
  if s.placed.getD v true then throw (.duplicatePlacement v)
  set { s with placed := s.placed.setIfInBounds v true }

/-- The jump from a block to the label of an enclosing construct. -/
def jump (frames : List Frame) (source target : Nat) (kind : FrameKind) : PlaceM (Shape B C) :=
  match frames.find? fun f => f.target == target && f.kind == kind with
  | some f => return .br f.label
  | none => throw (.missingLabel source target)

/-- How a block goes on at another one; `place` places a block inside some constructs. -/
def placeTarget (d : Dominance) (place : List Frame → Nat → PlaceM (Shape B C))
    (frames : List Frame) (v target : Nat) : PlaceM (Shape B C) :=
  if d.number.getD target 0 ≤ d.number.getD v 0 then jump frames v target .loop
  else if d.merge.getD target false then jump frames v target .block
  else place frames target

/-- How a block goes on by one exit. -/
def placeExit (d : Dominance) (place : List Frame → Nat → PlaceM (Shape B C))
    (frames : List Frame) (v : Nat) (e : Exit C) : PlaceM (Shape B C) := do
  let next ← placeTarget d place frames v e.target
  match e.dispatch with
  | some id => return .ofList [.setDispatch id, next]
  | none => return next

/-- How a block goes on by its exits, the last one placed first. -/
def placeExits (d : Dominance) (place : List Frame → Nat → PlaceM (Shape B C))
    (frames : List Frame) (v : Nat) : List (Exit C) → PlaceM (Shape B C)
  | [] => return .empty
  | e :: rest => do
    let otherwise ← placeExits d place frames v rest
    let next ← placeExit d place frames v e
    match e.test with
    | some test => return .cond test next otherwise
    | none => return next

/-- A block followed by the blocks among those it dominates that several forward exits reach, the
last in reverse postorder outermost. -/
def placeWithin (g : Graph B C) (d : Dominance) (place : List Frame → Nat → PlaceM (Shape B C))
    (v : Nat) : List Nat → List Frame → PlaceM (Shape B C)
  | [], frames => do
    let body : List (Shape B C) := match g.blocks[v]? with
      | some ⟨some body, _, _⟩ => [.body body]
      | _ => []
    let next ← placeExits d place frames v (g.exits v)
    return .ofList (body ++ [next])
  | y :: rest, frames => do
    let label ← freshLabel
    let inner ← placeWithin g d place v rest (⟨y, .block, label⟩ :: frames)
    let follow ← place frames y
    return .ofList [.block label inner, follow]

/-- A block with all that it dominates. The fuel is the number of blocks that are not placed yet,
so without any left the block has been placed before. -/
def placeTree (g : Graph B C) (d : Dominance) : Nat → List Frame → Nat → PlaceM (Shape B C)
  | 0, _, v => throw (.duplicatePlacement v)
  | fuel + 1, frames, v => do
    claim v
    let merges := (d.children.getD v []).filter fun y => d.merge.getD y false
    if d.header.getD v false then
      let label ← freshLabel
      let inner ← placeWithin g d (placeTree g d fuel) v merges (⟨v, .loop, label⟩ :: frames)
      return .loop label inner
    else placeWithin g d (placeTree g d fuel) v merges frames

/-- The structured form of a graph. -/
def structurize (g : Graph B C) : Except StructureError (Shape B C) := do
  g.validate
  let g := g.prune.withFreshEntry.splitIrreducible
  let d ← g.dominance
  let (shape, _) ← (g.placeTree d g.blocks.size [] g.entry).run
    ⟨0, Array.replicate g.blocks.size false⟩
  return shape

end Graph

end Dynarec.Flow
