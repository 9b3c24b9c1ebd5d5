import Dynarec.Flow.Graph

/-!
# Dominance

A block dominates another when every path from the entry to the other passes it. This module
numbers the reachable blocks in reverse postorder, finds the immediate dominator of each by
iteration from the entry, and tells which blocks head a loop, which are reached by several forward
exits, and which blocks each one immediately dominates.
-/

namespace Dynarec.Flow

/-- Blocks already visited, and the finished ones with the latest first. -/
structure Postorder where
  visited : Array Bool
  finished : List Nat

/-- The facts about dominance that placing needs: the number of every block in reverse postorder,
whether it heads a loop or joins several forward exits, and the blocks that it immediately
dominates, the highest number first. -/
structure Dominance where
  number : Array Nat
  header : Array Bool
  merge : Array Bool
  children : Array (List Nat)

namespace Graph

variable {B C : Type}

/-- Visit a block and all that it leads to; the fuel bounds the depth. -/
def finish (g : Graph B C) : Nat → Nat → Postorder → Postorder
  | 0, _, s => s
  | fuel + 1, v, s =>
    let s := (g.targets v).foldl (fun s w =>
      if s.visited.getD w true then s else finish g fuel w s)
      { s with visited := s.visited.setIfInBounds v true }
    { s with finished := v :: s.finished }

/-- The reachable blocks in reverse postorder, the entry first. -/
def reversePostorder (g : Graph B C) : List Nat :=
  (g.finish g.blocks.size g.entry ⟨Array.replicate g.blocks.size false, []⟩).finished

/-- The position of every block in an order of blocks; blocks that are not in it come after. -/
def positions (g : Graph B C) (order : List Nat) : Array Nat :=
  order.zipIdx.foldl (fun number (v, i) => number.setIfInBounds v i)
    (Array.replicate g.blocks.size g.blocks.size)

/-- For every block, the blocks of an order that have an exit to it. -/
def predecessors (g : Graph B C) (order : List Nat) : Array (List Nat) :=
  order.foldl (fun preds u => (g.targets u).foldl (fun preds v => preds.modify v (u :: ·)) preds)
    (Array.replicate g.blocks.size [])

/-- The closest common dominator of two blocks, by climbing from the one with the higher number to
its dominator; the fuel bounds the number of steps. -/
def meet (number : Array Nat) (idom : Array (Option Nat)) : Nat → Nat → Nat → Nat
  | 0, a, _ => a
  | fuel + 1, a, b =>
    if a = b then a
    else if number.getD b 0 < number.getD a 0 then
      meet number idom fuel ((idom.getD a none).getD a) b
    else meet number idom fuel a ((idom.getD b none).getD b)

/-- The dominator of a block as far as the dominators of its predecessors are known. -/
def nextIdom (number : Array Nat) (idom : Array (Option Nat)) (preds : List Nat) : Option Nat :=
  preds.foldl (fun best p =>
    if (idom.getD p none).isNone then best
    else
      match best with
      | none => some p
      | some d => some (meet number idom (2 * idom.size) p d)) none

/-- Renew the dominators of the blocks of an order; tells whether one has changed. -/
def idomPass (number : Array Nat) (preds : Array (List Nat)) (order : List Nat)
    (idom : Array (Option Nat)) : Array (Option Nat) × Bool :=
  order.foldl (fun (idom, changed) b =>
    let next := nextIdom number idom (preds.getD b [])
    if next.isSome && idom.getD b none != next then (idom.setIfInBounds b next, true)
    else (idom, changed)) (idom, false)

/-- Renew dominators until none changes; the fuel bounds the number of rounds. -/
def idomRounds (number : Array Nat) (preds : Array (List Nat)) (order : List Nat) :
    Nat → Array (Option Nat) → Array (Option Nat)
  | 0, idom => idom
  | fuel + 1, idom =>
    match idomPass number preds order idom with
    | (idom, true) => idomRounds number preds order fuel idom
    | (idom, false) => idom

/-- The immediate dominator of every reachable block, the entry's being itself. Every round but the
last moves a dominator to a lower number, so the square of the number of blocks bounds them. -/
def immediateDominators (g : Graph B C) (order : List Nat) : Array (Option Nat) :=
  let count := g.blocks.size
  idomRounds (g.positions order) (g.predecessors order) (order.drop 1) (count * count + 1)
    ((Array.replicate count none).setIfInBounds g.entry (some g.entry))

/-- Whether a block is met on the way from another one up to the entry. -/
def dominates (g : Graph B C) (idom : Array (Option Nat)) (a : Nat) : Nat → Nat → Bool
  | 0, _ => false
  | fuel + 1, b =>
    if a = b then true
    else if b = g.entry then false
    else
      match idom.getD b none with
      | some d => dominates g idom a fuel d
      | none => false

/-- Loop headers and the number of forward exits into every block. -/
def classify (g : Graph B C) (number : Array Nat) (idom : Array (Option Nat)) (order : List Nat) :
    Except StructureError (Array Bool × Array Nat) :=
  let count := g.blocks.size
  order.foldlM (fun state u =>
    (g.targets u).foldlM (fun (header, forward) v =>
      if number.getD v 0 ≤ number.getD u 0 then
        if g.dominates idom v (count + 1) u then .ok (header.setIfInBounds v true, forward)
        else .error (.irreducible u v)
      else .ok (header, forward.modify v (· + 1))) state)
    (Array.replicate count false, Array.replicate count 0)

/-- The facts about dominance; an error when some exit leads back to a block that does not
dominate its source. -/
def dominance (g : Graph B C) : Except StructureError Dominance := do
  let order := g.reversePostorder
  let number := g.positions order
  let idom := g.immediateDominators order
  let (header, forward) ← g.classify number idom order
  let children := (order.drop 1).foldl (fun children v =>
    match idom.getD v none with
    | some d => children.modify d (v :: ·)
    | none => children) (Array.replicate g.blocks.size [])
  return ⟨number, header, forward.map (2 ≤ ·), children⟩

end Graph

end Dynarec.Flow
