import Mathlib.Algebra.Group.Nat.Defs
import Mathlib.Tactic.Common
import Dynarec.Compiler.Basic
import Dynarec.Proofs.Run

/-!
# Steps of discovery

How finding and compiling a function goes step by step. Compiling a block takes fewer instructions
than memory has bytes, and finding a function takes at most two addresses for every block: the fuel
of neither is ever used up, so more of it changes nothing.
-/

namespace Dynarec.Compiler

open Ir (Op Operand)
open Linking (Code Slot)

/-! ### Steps -/

/-- One more word is compiled. -/
lemma translate_succ (mem : Memory) (known : UInt64 → Bool) (fuel : Nat) (pc : UInt64)
    (b : Block) :
    translate mem known (fuel + 1) pc b =
      match translateWord mem pc b with
      | .error e b' => .error e b'
      | .ok _ b' =>
        if b'.terminator.isSome ∨ known (pc + 4) then .ok (pc + 4) b'
        else translate mem known fuel (pc + 4) b' := by
  rw [translate]
  cases h : translateWord mem pc b with
  | error e b' => exact EStateM.bind_error h
  | ok u b' =>
    rw [EStateM.bind_ok h]
    change (if b'.terminator.isSome ∨ known (pc + 4) = true then pure (pc + 4)
      else translate mem known fuel (pc + 4)) b' = _
    dsimp only
    split <;> rfl

/-- How compiling a block ends. -/
lemma translateBlock_eq (mem : Memory) (known : UInt64 → Bool) (start : UInt64) (b : Block) :
    translateBlock mem known start b =
      match translate mem known (mem.size + 1) start b with
      | .error e b' => .error e b'
      | .ok next b' =>
        if b'.scratch.heldCount ≠ 0 then
          .error (.invariant (.unreleasedScratch b'.pc b'.scratch.heldCount)) b'
        else .ok (exitsOf b'.terminator next) b' := by
  rw [translateBlock]
  cases h : translate mem known (mem.size + 1) start b with
  | error e b' => exact EStateM.bind_error h
  | ok next b' =>
    rw [EStateM.bind_ok h]
    have hget : (get : EStateM Error Block Block) b' = .ok b' b' := rfl
    rw [EStateM.bind_ok hget]
    dsimp only
    split <;> rfl

/-- One more address is taken from the list. -/
lemma discover_cons (mem : Memory) (entry : UInt64) (fuel : Nat) (start : UInt64)
    (pending : List UInt64) (d : Discovery) (c : Compiler) :
    discover mem entry (fuel + 1) (start :: pending) d c =
      if d.blockOf.contains start then discover mem entry fuel pending d c
      else if c.config.maxBlocks ≤ d.blockOf.size then
        .error (.blockLimit entry c.config.maxBlocks) c
      else
        match discoverBlock mem start d c with
        | .error e c' => .error e c'
        | .ok (exits, d') c' =>
          discover mem entry fuel
            ((exits.map (·.2)).filter (fun target => !d'.blockOf.contains target) ++ pending) d' c' := by
  rw [discover]
  split
  · rfl
  · have hget : (get : EStateM Error Compiler Compiler) c = .ok c c := rfl
    rw [EStateM.bind_ok hget]
    dsimp only
    split
    · rfl
    · cases h : discoverBlock mem start d c with
      | error e c' => exact EStateM.bind_error h
      | ok r c' => exact EStateM.bind_ok h

/-- The graph that is brought into structured form: the one that is found, from the block of the
entry on, with its chains merged if the limits ask for that. -/
def finished (config : Config) (block : Nat) (graph : Flow.Graph (List Op) Operand) :
    Flow.Graph (List Op) Operand :=
  if config.coalesce then (graph.setEntry block).coalesce (· ++ ·) else graph.setEntry block

/-- How assembling a function ends. -/
lemma assemble_eq (config : Config) (entry : UInt64) (d : Discovery) :
    assemble config entry d =
      match d.found.toList.foldlM (link d.blockOf) d.graph with
      | .error e => .error e
      | .ok graph =>
        match d.blockOf[entry]? with
        | none => .error (.invariant (.unknownBlock entry entry))
        | some block =>
          match (finished config block graph).structurize with
          | .ok body => .ok ⟨entry, d.scratch.types, body⟩
          | .error e => .error (.invariant (.structure e)) := by
  unfold assemble finished
  rw [← Array.foldlM_toList]
  cases d.found.toList.foldlM (link d.blockOf) d.graph with
  | error e => rfl
  | ok graph => cases h : d.blockOf[entry]? <;> rfl

/-- A function is assembled when all ways out are linked and the graph has a structured form. -/
lemma assemble_eq_ok {config : Config} {entry : UInt64} {d : Discovery} {f : Ir.Function}
    (h : assemble config entry d = .ok f) :
    ∃ graph block body, d.found.toList.foldlM (link d.blockOf) d.graph = .ok graph ∧
      d.blockOf[entry]? = some block ∧ (finished config block graph).structurize = .ok body ∧
      f = ⟨entry, d.scratch.types, body⟩ := by
  rw [assemble_eq] at h
  split at h
  · cases h
  · next graph hgraph =>
    split at h
    · cases h
    · next block hblock =>
      split at h
      · next body hbody =>
        cases h
        exact ⟨graph, block, body, hgraph, hblock, hbody, rfl⟩
      · cases h

/-- How finding a function ends. -/
lemma build_eq (entry : UInt64) (mem : Memory) (c : Compiler) :
    build entry mem c =
      match discover mem entry (2 * c.config.maxBlocks + 2) [entry] .start c with
      | .error e c' => .error e c'
      | .ok d c' =>
        match assemble c.config entry d with
        | .ok f => .ok f c'
        | .error e => .error e c' := by
  have hget : (get : EStateM Error Compiler Compiler) c = .ok c c := rfl
  unfold build
  rw [EStateM.bind_ok hget]
  cases h : discover mem entry (2 * c.config.maxBlocks + 2) [entry] .start c with
  | error e c' => exact EStateM.bind_error h
  | ok d c' =>
    rw [EStateM.bind_ok h]
    show _ = match assemble c.config entry d with
      | .ok f => EStateM.Result.ok f c'
      | .error e => .error e c'
    cases assemble c.config entry d <;> rfl

/-- A compiler whose slot table has one for an address. -/
def withSlot (c : Compiler) (addr : UInt64) : Compiler :=
  { c with slots := (c.slots.functionSlot addr).2 }

/-- Build the function of an address and put its code into a slot. -/
def fill (slot : Nat) (entry : UInt64) (mem : Memory) : EStateM Error Compiler Code := do
  let f ← build entry mem
  match (← get).backend.prepare f with
  | .ok code =>
    modify (install slot entry code)
    return code
  | .error e => throw e

/-- How compiling a function ends: it is found in its slot, or built and put there, or it cannot be
built or prepared. -/
inductive Outcome (entry : UInt64) (mem : Memory) (c : Compiler) :
    EStateM.Result Error Compiler Code → Prop where
  | hit {a : UInt64} {code : Code} :
    (c.withSlot entry).slot? (c.slots.functionSlot entry).1 = some (.compiled a code) →
    Outcome entry mem c
      (.ok code { c.withSlot entry with cacheHits := (c.withSlot entry).cacheHits + 1 })
  | built {f : Ir.Function} {code : Code} {c' : Compiler} :
    (∀ a code, (c.withSlot entry).slot? (c.slots.functionSlot entry).1 ≠ some (.compiled a code)) →
    build entry mem (c.withSlot entry) = .ok f c' → c'.backend.prepare f = .ok code →
    Outcome entry mem c (.ok code (install (c.slots.functionSlot entry).1 entry code c'))
  | unbuilt {e : Error} {c' : Compiler} :
    (∀ a code, (c.withSlot entry).slot? (c.slots.functionSlot entry).1 ≠ some (.compiled a code)) →
    build entry mem (c.withSlot entry) = .error e c' → Outcome entry mem c (.error e c')
  | unprepared {f : Ir.Function} {e : Error} {c' : Compiler} :
    (∀ a code, (c.withSlot entry).slot? (c.slots.functionSlot entry).1 ≠ some (.compiled a code)) →
    build entry mem (c.withSlot entry) = .ok f c' → c'.backend.prepare f = .error e →
    Outcome entry mem c (.error e c')

theorem outcome_compile (entry : UInt64) (mem : Memory) (c : Compiler) :
    Outcome entry mem c (compile entry mem c) := by
  have hslot : slotFor entry c = .ok (c.slots.functionSlot entry).1 (c.withSlot entry) := rfl
  have hget : ∀ c : Compiler, (get : EStateM Error Compiler Compiler) c = .ok c c := fun _ => rfl
  unfold compile
  rw [EStateM.bind_ok hslot, EStateM.bind_ok (hget _)]
  generalize hs : (c.withSlot entry).slots.table.get? (c.slots.functionSlot entry).1 = s
  by_cases hcompiled : ∃ a code, s = some (.compiled a code)
  · obtain ⟨a, code, rfl⟩ := hcompiled
    exact .hit hs
  · have hnot : ∀ a code,
        (c.withSlot entry).slot? (c.slots.functionSlot entry).1 ≠ some (.compiled a code) :=
      fun a code h => hcompiled ⟨a, code, hs.symm.trans h⟩
    -- the two slots that are not compiled are treated alike
    have hrest : Outcome entry mem c
        (fill (c.slots.functionSlot entry).1 entry mem (c.withSlot entry)) := by
      unfold fill
      cases hb : build entry mem (c.withSlot entry) with
      | error e c' =>
        rw [EStateM.bind_error hb]
        exact .unbuilt hnot hb
      | ok f c' =>
        rw [EStateM.bind_ok hb, EStateM.bind_ok (hget _)]
        cases hp : c'.backend.prepare f with
        | ok code => exact .built hnot hb hp
        | error e => exact .unprepared hnot hb hp
    rcases s with _ | _ | _ | _
    · exact hrest
    · exact hrest
    · exact hrest
    · exact absurd ⟨_, _, rfl⟩ hcompiled

/-! ### What a compiler is set up with -/

/-- What a compiler is set up with stays when something is done to it. -/
def SameSetup (c c' : Compiler) : Prop := c'.backend = c.backend ∧ c'.config = c.config

instance : Std.Refl SameSetup := ⟨fun _ => ⟨rfl, rfl⟩⟩

instance : IsTrans Compiler SameSetup :=
  ⟨fun _ _ _ h h' => ⟨h'.1.trans h.1, h'.2.trans h.2⟩⟩

lemma discoverBlock_sameSetup (mem : Memory) (start : UInt64) (d : Discovery) :
    EStateM.Keeps SameSetup (discoverBlock mem start d) := by
  intro c
  unfold discoverBlock
  dsimp only
  cases translateBlock mem d.blockOf.contains start (.start start d.scratch c.slots) with
  | ok exits b => exact ⟨rfl, rfl⟩
  | error e b => exact ⟨rfl, rfl⟩

lemma discover_sameSetup (mem : Memory) (entry : UInt64) (fuel : Nat) (pending : List UInt64)
    (d : Discovery) : EStateM.Keeps SameSetup (discover mem entry fuel pending d) := by
  induction fuel generalizing pending d with
  | zero => exact fun c => ⟨rfl, rfl⟩
  | succ fuel ih =>
    intro c
    cases pending with
    | nil => exact ⟨rfl, rfl⟩
    | cons start pending =>
      rw [discover_cons]
      split
      · exact ih pending d c
      · split
        · exact ⟨rfl, rfl⟩
        · cases h : discoverBlock mem start d c with
          | error e c' => exact (discoverBlock_sameSetup mem start d).of_error h
          | ok r c' =>
            exact IsTrans.trans _ _ _ ((discoverBlock_sameSetup mem start d).of_ok h) (ih _ r.2 c')

lemma build_sameSetup (entry : UInt64) (mem : Memory) :
    EStateM.Keeps SameSetup (build entry mem) := by
  intro c
  have h := discover_sameSetup mem entry (2 * c.config.maxBlocks + 2) [entry] .start c
  rw [build_eq]
  cases hd : discover mem entry (2 * c.config.maxBlocks + 2) [entry] .start c with
  | error e c' => rwa [hd] at h
  | ok d c' =>
    rw [hd] at h
    dsimp only
    cases assemble c.config entry d <;> exact h

lemma compile_sameSetup (entry : UInt64) (mem : Memory) :
    EStateM.Keeps SameSetup (compile entry mem) := by
  intro c
  have hbuild : SameSetup c (EStateM.after (build entry mem (c.withSlot entry))) :=
    IsTrans.trans _ (c.withSlot entry) _ ⟨rfl, rfl⟩ (build_sameSetup entry mem _)
  have h := outcome_compile entry mem c
  generalize compile entry mem c = r at h
  cases h with
  | hit _ => exact ⟨rfl, rfl⟩
  | built _ hb _ => rw [hb] at hbuild; exact hbuild
  | unbuilt _ hb => rw [hb] at hbuild; exact hbuild
  | unprepared _ hb _ => rw [hb] at hbuild; exact hbuild

/-! ### Fuel -/

/-- A word that is compiled lies in memory. -/
lemma translateWord_ok {mem : Memory} {pc : UInt64} {b b' : Block} {u : Unit}
    (h : translateWord mem pc b = .ok u b') : pc.toNat + 4 ≤ mem.size := by
  unfold translateWord at h
  cases hread : mem.read pc .word with
  | error e => rw [hread] at h; cases h
  | ok word =>
    unfold Memory.read at hread
    split at hread
    · next hin => exact of_decide_eq_true hin
    · cases hread

/-- Instructions after the last word of memory are never asked for. -/
lemma translate_fuel {mem : Memory} (hmem : mem.size < 2 ^ 64) (known : UInt64 → Bool)
    {fuel fuel' : Nat} (pc : UInt64) (b : Block) (hfuel : mem.size - pc.toNat < fuel)
    (hle : fuel ≤ fuel') : translate mem known fuel' pc b = translate mem known fuel pc b := by
  induction fuel generalizing fuel' pc b with
  | zero => omega
  | succ fuel ih =>
    cases fuel' with
    | zero => omega
    | succ fuel' =>
      rw [translate_succ, translate_succ]
      cases h : translateWord mem pc b with
      | error e b₁ => rfl
      | ok u b₁ =>
        have hpc := translateWord_ok h
        have hnext : (pc + 4).toNat = pc.toNat + 4 := by
          rw [UInt64.toNat_add]
          exact Nat.mod_eq_of_lt (lt_of_le_of_lt hpc hmem)
        dsimp only
        split
        · rfl
        · exact ih (pc + 4) b₁ (by omega) (by omega)

lemma length_exitsOf (t : Option Terminator) (next : UInt64) : (exitsOf t next).length ≤ 2 := by
  unfold exitsOf
  split <;> simp

/-- A block that is found is added with what is translated at its address. -/
lemma discoverBlock_eq_ok {mem : Memory} {start : UInt64} {d d' : Discovery} {c c' : Compiler}
    {exits : Exits} (h : discoverBlock mem start d c = .ok (exits, d') c') :
    ∃ b, translateBlock mem d.blockOf.contains start (.start start d.scratch c.slots) = .ok exits b ∧
      d' = ⟨b.scratch, (d.graph.addBlock b.ops.toList).2,
        d.blockOf.insert start d.graph.blocks.size,
        d.found.push (d.graph.blocks.size, start, exits)⟩ ∧ c'.slots = b.slots := by
  unfold discoverBlock at h
  dsimp only at h
  cases hb : translateBlock mem d.blockOf.contains start (.start start d.scratch c.slots) with
  | error e b =>
    rw [hb] at h
    cases h
  | ok exits' b =>
    rw [hb] at h
    cases h
    exact ⟨b, rfl, rfl, rfl⟩

lemma discoverBlock_eq_error {mem : Memory} {start : UInt64} {d : Discovery} {e : Error}
    {c c' : Compiler} (h : discoverBlock mem start d c = .error e c') :
    ∃ b, translateBlock mem d.blockOf.contains start (.start start d.scratch c.slots) =
      .error e b := by
  unfold discoverBlock at h
  dsimp only at h
  cases hb : translateBlock mem d.blockOf.contains start (.start start d.scratch c.slots) with
  | error e' b =>
    rw [hb] at h
    cases h
    exact ⟨b, rfl⟩
  | ok exits b =>
    rw [hb] at h
    cases h

/-- A block that is found is new to the addresses of blocks and has at most two ways out. -/
lemma discoverBlock_ok {mem : Memory} {start : UInt64} {d d' : Discovery} {c c' : Compiler}
    {exits : Exits} (h : discoverBlock mem start d c = .ok (exits, d') c') :
    d'.blockOf = d.blockOf.insert start d.graph.blocks.size ∧ exits.length ≤ 2 := by
  obtain ⟨b, hb, rfl, -⟩ := discoverBlock_eq_ok h
  refine ⟨rfl, ?_⟩
  rw [translateBlock_eq] at hb
  split at hb
  · cases hb
  · split at hb
    · cases hb
    · cases hb
      exact length_exitsOf _ _

/-- Every block puts at most two addresses on the list, and their number is limited. -/
lemma discover_fuel (mem : Memory) (entry : UInt64) {fuel fuel' : Nat} (pending : List UInt64)
    (d : Discovery) (c : Compiler)
    (hfuel : pending.length + 2 * (c.config.maxBlocks - d.blockOf.size) < fuel)
    (hle : fuel ≤ fuel') :
    discover mem entry fuel' pending d c = discover mem entry fuel pending d c := by
  induction fuel generalizing fuel' pending d c with
  | zero => omega
  | succ fuel ih =>
    cases fuel' with
    | zero => omega
    | succ fuel' =>
      cases pending with
      | nil => rfl
      | cons start pending =>
        rw [List.length_cons] at hfuel
        rw [discover_cons, discover_cons]
        split
        · exact ih pending d c (by omega) (by omega)
        · next hnew =>
          split
          · rfl
          · next hlimit =>
            cases h : discoverBlock mem start d c with
            | error e c' => rfl
            | ok r c' =>
              obtain ⟨exits, d'⟩ := r
              obtain ⟨hblocks, hexits⟩ := discoverBlock_ok h
              have hconfig := ((discoverBlock_sameSetup mem start d).of_ok h).2
              have hsize : d'.blockOf.size = d.blockOf.size + 1 := by
                rw [hblocks, Std.HashMap.size_insert, if_neg]
                exact fun hmem => hnew (Std.HashMap.contains_iff_mem.2 hmem)
              have hlength := List.length_filter_le (fun t => !d'.blockOf.contains t)
                (exits.map (·.2))
              rw [List.length_map] at hlength
              dsimp only
              apply ih
              · rw [List.length_append, hconfig, hsize]
                omega
              · omega

end Dynarec.Compiler
