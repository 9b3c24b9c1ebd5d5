import Dynarec.Flow.Graph

/-!
# Strongly connected components

The components of the part of a graph that lies in a region, found by one depth-first search that
numbers blocks as it discovers them and keeps, for every block, the lowest number it knows to be
reachable from it among the blocks of components that are still open. A component comes after every
other component that it reaches.
-/

namespace Dynarec.Flow

/-- The state of the search: discovery numbers, lowest reachable numbers, the blocks of open
components with the latest first, and the components found. -/
structure Search where
  number : Array (Option Nat)
  low : Array Nat
  stack : List Nat
  onStack : Array Bool
  next : Nat
  components : Array (List Nat)

namespace Search

/-- Nothing is discovered among `count` blocks. -/
def start (count : Nat) : Search :=
  ⟨Array.replicate count none, Array.replicate count 0, [], Array.replicate count false, 0, #[]⟩

/-- Discover a block. -/
def enter (s : Search) (v : Nat) : Search :=
  { s with
    number := s.number.setIfInBounds v (some s.next)
    low := s.low.setIfInBounds v s.next
    stack := v :: s.stack
    onStack := s.onStack.setIfInBounds v true
    next := s.next + 1 }

/-- A block reaches the number `n`. -/
def lower (s : Search) (v n : Nat) : Search := { s with low := s.low.modify v (min n) }

/-- All that a block leads to is discovered: when it reaches no lower number than its own, the
blocks down to it on the stack are a component. -/
def close (s : Search) (v : Nat) : Search :=
  if s.number.getD v none = some (s.low.getD v 0) then
    let component := s.stack.takeWhile (· != v) ++ [v]
    { s with
      stack := (s.stack.dropWhile (· != v)).drop 1
      onStack := component.foldl (fun on w => on.setIfInBounds w false) s.onStack
      components := s.components.push component }
  else s

end Search

namespace Graph

variable {B C : Type}

/-- Search from a block through a region; the fuel bounds the depth of the search. -/
def visit (g : Graph B C) (region : Array Bool) : Nat → Nat → Search → Search
  | 0, _, s => s
  | fuel + 1, v, s =>
    let s := (g.targets v).foldl (fun s w =>
      if !region.getD w false then s
      else
        match s.number.getD w none with
        | none =>
          let s := visit g region fuel w s
          let n := s.low.getD w 0
          s.lower v n
        | some n => if s.onStack.getD w false then s.lower v n else s) (s.enter v)
    s.close v

/-- The strongly connected components of a region. -/
def components (g : Graph B C) (region : Array Bool) : List (List Nat) :=
  let count := g.blocks.size
  let s := (List.range count).foldl (fun s v =>
    if region.getD v false && (s.number.getD v none).isNone then g.visit region count v s else s)
    (Search.start count)
  s.components.toList

end Graph

end Dynarec.Flow
