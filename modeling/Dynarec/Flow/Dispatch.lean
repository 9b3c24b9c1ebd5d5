import Dynarec.Flow.Components

/-!
# Dispatchers

A cycle that can be entered at several blocks has no structured form. Each such cycle gets a
dispatcher: a block without a body to which every exit into one of these blocks is led, after it
has put the block into the dispatch variable, and which goes on with the block that the variable
names. The cycle has one entry then, and what is left of it without that entry is treated alike.
-/

namespace Dynarec.Flow.Graph

variable {B C : Type}

/-- The region of some blocks among `count`. -/
def regionOf (count : Nat) (members : List Nat) : Array Bool :=
  members.foldl (fun region v => region.setIfInBounds v true) (Array.replicate count false)

/-- Take the exits away from blocks that the entry does not reach. -/
def prune (g : Graph B C) : Graph B C :=
  let live := g.reachable
  { g with
    blocks := g.blocks.mapIdx fun v b => if live.getD v false then b else { b with exits := [] } }

/-- Put a block without a body before an entry that some exit leads to. -/
def withFreshEntry (g : Graph B C) : Graph B C :=
  if (List.range g.blocks.size).any fun v => (g.targets v).contains g.entry then
    ⟨g.blocks.push ⟨none, [⟨none, g.entry, none⟩], false⟩, g.blocks.size⟩
  else g

/-- The blocks of a region at which it is entered, in ascending order. -/
def entriesOf (g : Graph B C) (region : Array Bool) : List Nat :=
  let count := g.blocks.size
  let entered := (List.range count).foldl (fun entered v =>
    if region.getD v false then entered
    else
      (g.targets v).foldl (fun entered w =>
        if region.getD w false then entered.setIfInBounds w true else entered) entered)
    (Array.replicate count false)
  (List.range count).filter fun v => entered.getD v false || (region.getD v false && v == g.entry)

/-- The exits of a dispatcher: one for each block, the last one without a test. -/
def dispatcherExits : List Nat → List (Exit C)
  | [] => []
  | [v] => [⟨none, v, none⟩]
  | v :: rest => ⟨some (.dispatchIs v), v, none⟩ :: dispatcherExits rest

/-- Lead every exit to one of some blocks to a new dispatcher; gives its position. -/
def insertDispatcher (g : Graph B C) (entries : List Nat) : Nat × Graph B C :=
  let dispatcher := g.blocks.size
  let isEntry := regionOf g.blocks.size entries
  let blocks := g.blocks.map fun b =>
    { b with
      exits := b.exits.map fun e =>
        if isEntry.getD e.target false then
          { e with dispatch := some e.target, target := dispatcher }
        else e }
  (dispatcher, { g with blocks := blocks.push ⟨none, dispatcherExits entries, false⟩ })

/-- Whether a component is a cycle. -/
def isCyclic (g : Graph B C) : List Nat → Bool
  | [] => false
  | [v] => (g.targets v).contains v
  | _ => true

/-- Give every cycle of a region a single entry, and every cycle that is left without that entry,
and so on; the fuel bounds how deep cycles nest. -/
def split : Nat → Array Bool → Graph B C → Graph B C
  | 0, _, g => g
  | fuel + 1, region, g =>
    (g.components region).foldl (fun g members =>
      if !g.isCyclic members then g
      else
        let cycle := regionOf g.blocks.size members
        let (header, g) := match g.entriesOf cycle with
          | [single] => (single, g)
          | entries => g.insertDispatcher entries
        split fuel (cycle.setIfInBounds header false) g) g

/-- The graph in which every cycle has a single entry. Cycles nest at most as deep as there are
blocks: what is left of a cycle without its entry is smaller, and the entries of one that got a
dispatcher lie on no cycle of what is left. -/
def splitIrreducible (g : Graph B C) : Graph B C :=
  split (g.blocks.size + 1) g.reachable g

end Dynarec.Flow.Graph
