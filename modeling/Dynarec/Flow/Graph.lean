import Dynarec.Shape.Basic

/-!
# Block graphs

A block graph has blocks with bodies and exits and an entry block. The exits of a block are tried
in order: conditional ones, taken when their condition holds, and last an unconditional one. A
block without exits leaves the function in its body. This module also says which graphs are well
formed and which of their blocks are reachable, and merges straight-line chains of blocks.
-/

namespace Dynarec.Flow

/-- Why a graph has no structured form. -/
inductive StructureError where
  | empty
  | unknownTarget (node target : Nat)
  | malformedExits (node : Nat)
  | missingLabel (source target : Nat)
  | duplicatePlacement (node : Nat)
  | irreducible (source target : Nat)
  deriving DecidableEq, Repr

/-- What is said to the user about a graph without a structured form. -/
def StructureError.message : StructureError → String
  | .empty => "block graph is empty"
  | .unknownTarget node target => s!"block {node} branches to nonexistent block {target}"
  | .malformedExits node => s!"block {node} must end in exactly one unconditional exit"
  | .missingLabel source target => s!"no enclosing label for edge {source} -> {target}"
  | .duplicatePlacement node => s!"block {node} placed twice"
  | .irreducible source target =>
    s!"retreating edge {source} -> {target} survived irreducible-region splitting"

/-- A way out of a block: when it is taken, where it leads, and the value that the dispatch
variable gets on the way. -/
structure Exit (C : Type) where
  test : Option (Test C)
  target : Nat
  dispatch : Option Nat

/-- A block. It has no body when it only dispatches or when another block has absorbed it. -/
structure Block (B C : Type) where
  body : Option B
  exits : List (Exit C)
  absorbed : Bool

/-- Blocks, named by their position, and the entry block. -/
structure Graph (B C : Type) where
  blocks : Array (Block B C)
  entry : Nat

namespace Graph

variable {B C : Type}

/-- The graph without blocks. -/
def empty : Graph B C := ⟨#[], 0⟩

/-- Number of blocks that no other block has absorbed. -/
def size (g : Graph B C) : Nat := g.blocks.countP fun b => !b.absorbed

/-- Add a block without exits; gives its position. -/
def addBlock (g : Graph B C) (body : B) : Nat × Graph B C :=
  (g.blocks.size, { g with blocks := g.blocks.push ⟨some body, [], false⟩ })

/-- Add an exit behind the exits of a block. -/
def addExit (g : Graph B C) (source : Nat) (cond : Option C) (target : Nat) : Graph B C :=
  { g with
    blocks := g.blocks.modify source fun b =>
      { b with exits := b.exits ++ [⟨cond.map Test.cond, target, none⟩] } }

/-- Choose the entry block. -/
def setEntry (g : Graph B C) (entry : Nat) : Graph B C := { g with entry := entry }

/-- The exits of a block. -/
def exits (g : Graph B C) (v : Nat) : List (Exit C) :=
  match g.blocks[v]? with
  | some b => b.exits
  | none => []

/-- The targets of the exits of a block. -/
def targets (g : Graph B C) (v : Nat) : List Nat := (g.exits v).map (·.target)

/-! ### Reachable blocks -/

/-- Note the blocks among some that are not marked yet: mark them and put them on a stack. -/
def note (seen : Array Bool) (stack vs : List Nat) : Array Bool × List Nat :=
  vs.foldl (fun (seen, stack) v =>
    if seen.getD v true then (seen, stack) else (seen.setIfInBounds v true, v :: stack))
    (seen, stack)

/-- Mark all that the blocks on a stack lead to; the fuel bounds the number of blocks taken from
the stack. -/
def explore (g : Graph B C) : Nat → List Nat → Array Bool → Array Bool
  | 0, _, seen => seen
  | _ + 1, [], seen => seen
  | fuel + 1, v :: stack, seen =>
    let (seen, stack) := note seen stack (g.targets v)
    explore g fuel stack seen

/-- Which blocks the entry reaches. Every block is taken from the stack at most once. -/
def reachable (g : Graph B C) : Array Bool :=
  let (seen, stack) := note (Array.replicate g.blocks.size false) [] [g.entry]
  g.explore g.blocks.size stack seen

/-! ### Well-formed graphs -/

/-- Check the exits of a block against the number of blocks. -/
def checkExits (count v : Nat) : List (Exit C) → Except StructureError Unit
  | [] => .ok ()
  | e :: rest =>
    if count ≤ e.target then .error (.unknownTarget v e.target)
    else if rest.isEmpty == e.test.isSome then .error (.malformedExits v)
    else checkExits count v rest

/-- Check that there are blocks, that the entry and every target are blocks, and that the last exit
of every block, and no other one, is unconditional. -/
def validate (g : Graph B C) : Except StructureError Unit := do
  if g.blocks.isEmpty then .error .empty
  if g.blocks.size ≤ g.entry then .error (.unknownTarget g.entry g.entry)
  (List.range g.blocks.size).forM fun v => checkExits g.blocks.size v (g.exits v)

/-! ### Chains -/

/-- How many exits of reachable blocks lead to each block. -/
def incoming (g : Graph B C) : Array Nat :=
  let live := g.reachable
  (List.range g.blocks.size).foldl (fun counts v =>
    if live.getD v false then
      (g.targets v).foldl (fun counts w => counts.modify w (· + 1)) counts
    else counts) (Array.replicate g.blocks.size 0)

/-- The block that a block can absorb: the target of its only exit, when no other exit leads
there and it is neither the entry nor the block itself. -/
def absorbable? (g : Graph B C) (incoming : Array Nat) (a : Nat) : Option Nat :=
  match g.exits a with
  | [only] =>
    let b := only.target
    if only.test.isSome || b == a || b == g.entry || incoming.getD b 0 != 1 ||
        (g.blocks[b]?.map (·.absorbed)).getD true then none
    else some b
  | _ => none

/-- Put the body and the exits of block `b` behind those of block `a`. -/
def absorb (join : B → B → B) (g : Graph B C) (a b : Nat) : Graph B C :=
  match g.blocks[b]? with
  | none => g
  | some absorbed =>
    let blocks := g.blocks.setIfInBounds b ⟨none, [], true⟩
    let blocks := blocks.modify a fun block =>
      { block with
        body := match block.body, absorbed.body with
          | some dst, some src => some (join dst src)
          | body, _ => body
        exits := absorbed.exits }
    { g with blocks := blocks }

/-- Let a block absorb as long as it can; the fuel bounds the number of blocks it absorbs. -/
def absorbChain (join : B → B → B) (incoming : Array Nat) : Nat → Graph B C → Nat → Graph B C
  | 0, g, _ => g
  | fuel + 1, g, a =>
    match g.absorbable? incoming a with
    | some b => absorbChain join incoming fuel (g.absorb join a b) a
    | none => g

/-- Merge straight-line chains of reachable blocks, joining their bodies. -/
def coalesce (join : B → B → B) (g : Graph B C) : Graph B C :=
  let live := g.reachable
  let counts := g.incoming
  (List.range g.blocks.size).foldl (fun g a =>
    if live.getD a false && !(g.blocks[a]?.map (·.absorbed)).getD true then
      absorbChain join counts g.blocks.size g a
    else g) g

end Graph

end Dynarec.Flow
