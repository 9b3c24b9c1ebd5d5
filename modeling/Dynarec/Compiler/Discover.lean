import Dynarec.Compiler.Config
import Dynarec.Compiler.Lower
import Dynarec.Flow.Placement

/-!
# Discovering functions

The function at a guest address: blocks are compiled from the address on, each until an instruction
ends it or the next instruction starts a block that is known, and the addresses they go to are
taken up in turn. The graph of the blocks is then brought into structured form.
-/

namespace Dynarec.Compiler

open Ir (Op Operand)

/-- The ways out of a block: conditions with addresses, tried in order. -/
abbrev Exits := List (Option Operand × UInt64)

/-- The ways out of a block that is followed by an address. -/
def exitsOf (t : Option Terminator) (next : UInt64) : Exits :=
  match t with
  | none => [(none, next)]
  | some .stop => []
  | some (.branch target none) => [(none, target)]
  | some (.branch target (some cond)) => [(some cond, target), (none, next)]

/-- Compile the instruction at an address. -/
def translateWord (mem : Memory) (pc : UInt64) : EmitM Unit := fun b =>
  match mem.read pc .word with
  | .ok word =>
    let word := word.toUInt32
    lowerWord word { b with pc, word }
  | .error _ => .error (.fetchOutOfBounds pc) b

/-- Compile instructions from an address until one ends the block or the next one is known; gives
the address after the last one. The fuel bounds the number of instructions. -/
def translate (mem : Memory) (known : UInt64 → Bool) : Nat → UInt64 → EmitM UInt64
  | 0, pc => throw (.fetchOutOfBounds pc)
  | fuel + 1, pc => do
    translateWord mem pc
    let next := pc + 4
    if (← get).terminator.isSome ∨ known next then return next else translate mem known fuel next

/-- Compile the block that starts at an address; gives its ways out. Memory holds fewer than
`mem.size + 1` words, so the fuel is enough. -/
def translateBlock (mem : Memory) (known : UInt64 → Bool) (start : UInt64) : EmitM Exits := do
  let next ← translate mem known (mem.size + 1) start
  let b ← get
  let held := b.scratch.heldCount
  if held ≠ 0 then throw (.invariant (.unreleasedScratch b.pc held))
  return exitsOf b.terminator next

/-- What is found of a function: its scratch locals, its graph, the blocks of addresses, and the
ways out of the blocks in the order in which they were found. -/
structure Discovery where
  scratch : Ir.Scratch
  graph : Flow.Graph (List Op) Operand
  blockOf : Std.HashMap UInt64 Nat
  found : Array (Nat × UInt64 × Exits)

/-- Nothing is found. -/
def Discovery.start : Discovery := ⟨.empty, .empty, ∅, #[]⟩

/-- Compile the block at an address that has none. -/
def discoverBlock (mem : Memory) (start : UInt64) (d : Discovery) :
    EStateM Error Compiler (Exits × Discovery) :=
  fun ⟨backend, config, slots, compilations, blocks, hits⟩ =>
    match translateBlock mem d.blockOf.contains start (.start start d.scratch slots) with
    | .error e b => .error e ⟨backend, config, b.slots, compilations, blocks, hits⟩
    | .ok exits b =>
      let (node, graph) := d.graph.addBlock b.ops.toList
      .ok (exits, ⟨b.scratch, graph, d.blockOf.insert start node,
          d.found.push (node, start, exits)⟩)
        ⟨backend, config, b.slots, compilations, blocks + 1, hits⟩

/-- Compile blocks from the addresses of a list on, taking up the first way out of each block
before the others. The fuel bounds the number of addresses taken from the list. -/
def discover (mem : Memory) (entry : UInt64) :
    Nat → List UInt64 → Discovery → EStateM Error Compiler Discovery
  | 0, _, _ => do throw (.blockLimit entry (← get).config.maxBlocks)
  | _ + 1, [], d => return d
  | fuel + 1, start :: pending, d => do
    if d.blockOf.contains start then discover mem entry fuel pending d
    else
      let limit := (← get).config.maxBlocks
      if limit ≤ d.blockOf.size then throw (.blockLimit entry limit)
      let (exits, d) ← discoverBlock mem start d
      let next := (exits.map (·.2)).filter fun target => !d.blockOf.contains target
      discover mem entry fuel (next ++ pending) d

/-- Lead the ways out of a block to the blocks of their addresses. -/
def link (blockOf : Std.HashMap UInt64 Nat) (graph : Flow.Graph (List Op) Operand)
    (found : Nat × UInt64 × Exits) : Except Error (Flow.Graph (List Op) Operand) :=
  let (node, source, exits) := found
  exits.foldlM (fun graph (cond, target) =>
    match blockOf[target]? with
    | some block => .ok (graph.addExit node cond block)
    | none => .error (.invariant (.unknownBlock source target))) graph

/-- The function of the blocks found from an entry. -/
def assemble (config : Config) (entry : UInt64) (d : Discovery) : Except Error Ir.Function := do
  let graph ← d.found.foldlM (link d.blockOf) d.graph
  let some block := d.blockOf[entry]? | .error (.invariant (.unknownBlock entry entry))
  let graph := graph.setEntry block
  let graph := if config.coalesce then graph.coalesce (· ++ ·) else graph
  match graph.structurize with
  | .ok body => .ok ⟨entry, d.scratch.types, body⟩
  | .error e => .error (.invariant (.structure e))

/-- The function at an address. Every block that is found puts at most two addresses on the list,
so the fuel is enough. -/
def build (entry : UInt64) (mem : Memory) : EStateM Error Compiler Ir.Function := do
  let config := (← get).config
  let d ← discover mem entry (2 * config.maxBlocks + 2) [entry] .start
  match assemble config entry d with
  | .ok f => return f
  | .error e => throw e

end Dynarec.Compiler
