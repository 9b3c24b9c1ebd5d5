import Dynarec.Proofs.Compiler.Discovery
import Dynarec.Proofs.Compiler.Emitters
import Dynarec.Proofs.Flow.Meaning

/-!
# What discovery finds

Between two instructions no scratch local is held, a block ends without successor only behind an
operation that returns, and every address that a block leads to is taken up. So the graph that is
found is complete: it passes the checks that come before its structured form, and its blocks without
exits return. Nothing but the guest program and the limit on blocks makes discovery fail.
-/

namespace Dynarec

/-- Errors that tell of the guest program, or of the limit on the number of blocks. -/
def Error.IsRefusal : Error → Prop
  | .invalidEncoding .. | .unsupportedInstruction .. | .fetchOutOfBounds _ | .blockLimit .. => True
  | _ => False

namespace Compiler

open Ir (Op Operand)

/-! ### Blocks between instructions -/

/-- A block between two instructions: no local is held, and it ends without successor only if one of
its operations returns. -/
structure Block.Settled (b : Block) : Prop where
  valid : b.scratch.Valid
  free : ∀ l, ¬ b.scratch.Holds l
  returns : b.terminator = some .stop → ∃ x, .ret x ∈ b.ops.toList

/-- The block into which an instruction is compiled by itself. -/
def Block.alone (b : Block) : Block := ⟨b.pc, b.word, #[], none, .empty, b.slots⟩

/-- An open block holds what an empty one holds: nothing. -/
lemma Block.Settled.alike {b : Block} (h : b.Settled) (hopen : b.terminator = none) :
    Block.Alike b ⟨[], .plain⟩ b b.alone where
  pc := rfl
  word := rfl
  slots := rfl
  asked := .refl
  valid := h.valid
  valid' := Ir.Scratch.valid_empty
  types _ _ hty := hty
  holds l := iff_of_false (h.free l) List.not_mem_nil
  holds' _ := iff_of_false Ir.Scratch.not_holds_empty List.not_mem_nil
  nodup := List.nodup_nil
  nodup' := List.nodup_nil
  typed _ hp := absurd hp List.not_mem_nil
  ops := ⟨[], fun _ _ => False, (List.append_nil _).symm, .nil,
    fun _ _ hl => absurd hl List.not_mem_nil, hopen, rfl, rfl⟩

/-- What is compiled into a block between instructions leaves it between instructions, or is
refused. -/
def Leaves {α : Type} : EStateM.Result Error Block α → Prop
  | .ok _ b => b.Settled
  | .error e _ => e.IsRefusal

/-- Every instruction but one that raises an exception is compiled between instructions. -/
lemma lower_ok {i : Instr} (hraise : ∀ kind imm, i ≠ .exception kind imm) {b : Block} (h : b.Settled)
    (hopen : b.terminator = none) : ∃ b', lower i b = .ok () b' ∧ b'.Settled := by
  have hend := (Emits.lower hraise).agree b b b.alone (h.alike hopen)
  unfold EndAlike at hend
  split at hend
  · next a c a' c' hc hc' =>
    obtain ⟨Γ, ⟨hheld, hphase⟩, halike⟩ := hend
    refine ⟨c, hc, halike.valid, fun l => ?_, fun hstop => ?_⟩
    · rw [halike.holds, hheld]
      exact List.not_mem_nil
    · obtain ⟨xs, D, hxs, -, -, hallows⟩ := halike.ops
      obtain ⟨held, phase⟩ := Γ
      cases phase with
      | plain => exact absurd (hallows.1.symm.trans hstop) nofun
      | calling => exact absurd (hallows.1.symm.trans hstop) nofun
      | returned => exact absurd rfl hphase
      | ended =>
        obtain ⟨x, hx⟩ := hallows.2 hstop
        exact ⟨x, by rw [hxs]; exact List.mem_append_right _ hx⟩
  · exact hend.elim

lemma lower_leaves (i : Instr) {b : Block} (h : b.Settled) (hopen : b.terminator = none) :
    Leaves (lower i b) := by
  by_cases hraise : ∀ kind imm, i ≠ .exception kind imm
  · obtain ⟨b', hb', hsettled⟩ := lower_ok hraise h hopen
    rw [hb']
    exact hsettled
  · simp only [not_forall, not_not] at hraise
    obtain ⟨kind, imm, rfl⟩ := hraise
    exact trivial

lemma lowerWord_leaves (word : UInt32) {b : Block} (h : b.Settled) (hopen : b.terminator = none) :
    Leaves (lowerWord word b) := by
  unfold lowerWord
  cases Instr.decode word with
  | error e => exact trivial
  | ok r =>
    obtain ⟨form, fields⟩ := r
    dsimp only
    cases form.read fields with
    | error e => exact trivial
    | ok i => exact lower_leaves i h hopen

variable {mem : Memory} {known : UInt64 → Bool}

lemma translateWord_leaves (mem : Memory) (pc : UInt64) {b : Block} (h : b.Settled)
    (hopen : b.terminator = none) : Leaves (translateWord mem pc b) := by
  unfold translateWord
  cases mem.read pc .word with
  | ok word => exact lowerWord_leaves _ ⟨h.valid, h.free, h.returns⟩ hopen
  | error e => exact trivial

lemma translate_leaves (mem : Memory) (known : UInt64 → Bool) (fuel : Nat) (pc : UInt64)
    {b : Block} (h : b.Settled) (hopen : b.terminator = none) :
    Leaves (translate mem known fuel pc b) := by
  induction fuel generalizing pc b with
  | zero => exact trivial
  | succ fuel ih =>
    rw [translate_succ]
    have hword := translateWord_leaves mem pc h hopen
    cases hw : translateWord mem pc b with
    | error e b' =>
      rw [hw] at hword
      exact hword
    | ok u b' =>
      rw [hw] at hword
      dsimp only
      split
      · exact hword
      · next hmore =>
        exact ih (pc + 4) hword (by simpa using (not_or.1 hmore).1)

/-- A block of its own is translated to its end. -/
lemma translateBlock_ok {start : UInt64} {b b' : Block} {exits : Exits} (h : b.Settled)
    (hopen : b.terminator = none) (hb : translateBlock mem known start b = .ok exits b') :
    b'.Settled ∧ ∃ next, exits = exitsOf b'.terminator next := by
  have hleaves := translate_leaves mem known (mem.size + 1) start h hopen
  rw [translateBlock_eq] at hb
  cases ht : translate mem known (mem.size + 1) start b with
  | error e b₁ =>
    rw [ht] at hb
    cases hb
  | ok next b₁ =>
    rw [ht] at hb hleaves
    dsimp only at hb
    split at hb
    · cases hb
    · cases hb
      exact ⟨hleaves, next, rfl⟩

lemma translateBlock_error {start : UInt64} {b b' : Block} {e : Error} (h : b.Settled)
    (hopen : b.terminator = none) (hb : translateBlock mem known start b = .error e b') :
    e.IsRefusal := by
  have hleaves := translate_leaves mem known (mem.size + 1) start h hopen
  rw [translateBlock_eq] at hb
  cases ht : translate mem known (mem.size + 1) start b with
  | error e₁ b₁ =>
    rw [ht] at hb hleaves
    cases hb
    exact hleaves
  | ok next b₁ =>
    rw [ht] at hb hleaves
    have hheld : b₁.scratch.heldCount = 0 := Ir.Scratch.heldCount_eq_zero.2 hleaves.free
    simp only [hheld, ne_eq, not_true_eq_false, if_false] at hb
    cases hb

/-! ### Finding blocks -/

/-- Ways out of a block as `exitsOf` gives them: none, one, or one with a condition and one more. -/
inductive Exits.Ended : Exits → Prop where
  | none : Ended []
  | one (target : UInt64) : Ended [(none, target)]
  | two (cond : Operand) (target next : UInt64) : Ended [(some cond, target), (none, next)]

lemma ended_exitsOf (t : Option Terminator) (next : UInt64) : Exits.Ended (exitsOf t next) := by
  unfold exitsOf
  split
  · exact .one _
  · exact .none
  · exact .one _
  · exact .two _ _ _

lemma exitsOf_eq_nil {t : Option Terminator} {next : UInt64} (h : exitsOf t next = []) :
    t = some .stop := by
  unfold exitsOf at h
  split at h
  · cases h
  · rfl
  · cases h
  · cases h

/-- The operations of a block, if it has a body. -/
def bodyAt (g : Flow.Graph (List Op) Operand) (n : Nat) : Option (List Op) :=
  (g.blocks[n]?).bind (·.body)

/-- What has been found, with addresses still to be taken up: the blocks are numbered in the order
in which they have been found and have no exits yet, and every address that a block leads to has a
block or is to be taken up. -/
structure Discovery.Regular (d : Discovery) (pending : List UInt64) : Prop where
  valid : d.scratch.Valid
  free : ∀ l, ¬ d.scratch.Holds l
  built : d.graph.Built
  bare : ∀ n, d.graph.exits n = []
  numbered : d.found.toList.map (·.1) = List.range d.graph.blocks.size
  inRange : ∀ (a : UInt64) (n : Nat), d.blockOf[a]? = some n → n < d.graph.blocks.size
  closed : ∀ x ∈ d.found.toList, ∀ e ∈ x.2.2, d.blockOf.contains e.2 ∨ e.2 ∈ pending
  ended : ∀ x ∈ d.found.toList, x.2.2.Ended
  returns : ∀ x ∈ d.found.toList, x.2.2 = [] →
    ∃ ops y, bodyAt d.graph x.1 = some ops ∧ .ret y ∈ ops

lemma regular_start (pending : List UInt64) : Discovery.start.Regular pending where
  valid := Ir.Scratch.valid_empty
  free _ := Ir.Scratch.not_holds_empty
  built := .empty
  bare _ := rfl
  numbered := rfl
  inRange a n h := by simp [Discovery.start] at h
  closed x hx := by cases hx
  ended x hx := by cases hx
  returns x hx := by cases hx

/-- An address that has a block need not be taken up. -/
lemma Discovery.Regular.skip {d : Discovery} {start : UInt64} {pending : List UInt64}
    (h : d.Regular (start :: pending)) (hknown : d.blockOf.contains start) : d.Regular pending where
  valid := h.valid
  free := h.free
  built := h.built
  bare := h.bare
  numbered := h.numbered
  inRange := h.inRange
  closed x hx e he := by
    rcases h.closed x hx e he with hc | hc
    · exact .inl hc
    · rcases List.mem_cons.1 hc with heq | hc
      · exact .inl (heq ▸ hknown)
      · exact .inr hc
  ended := h.ended
  returns := h.returns

section
variable {B C : Type}

lemma getElem?_addBlock (g : Flow.Graph B C) (body : B) (n : Nat) :
    (g.addBlock body).2.blocks[n]? =
      if n = g.blocks.size then some ⟨some body, [], false⟩ else g.blocks[n]? := by
  rw [Flow.Graph.addBlock, Array.getElem?_push]

lemma exits_addBlock (g : Flow.Graph B C) (body : B) (n : Nat) :
    (g.addBlock body).2.exits n = g.exits n := by
  rw [Flow.Graph.exits, getElem?_addBlock]
  by_cases hn : n = g.blocks.size
  · subst hn
    simp [Flow.Graph.exits]
  · rw [if_neg hn, Flow.Graph.exits]

end

/-- The operations of a block that is added are those it is added with. -/
lemma bodyAt_addBlock_self (g : Flow.Graph (List Op) Operand) (ops : List Op) :
    bodyAt (g.addBlock ops).2 g.blocks.size = some ops := by
  rw [bodyAt, getElem?_addBlock, if_pos rfl]
  rfl

lemma bodyAt_addBlock_of_ne {g : Flow.Graph (List Op) Operand} {n : Nat} (h : n ≠ g.blocks.size)
    (ops : List Op) : bodyAt (g.addBlock ops).2 n = bodyAt g n := by
  rw [bodyAt, getElem?_addBlock, if_neg h, bodyAt]

/-- One more block has been found, and the addresses that it leads to are taken up next. -/
lemma discoverBlock_regular {start : UInt64} {d d' : Discovery} {exits : Exits} {c c' : Compiler}
    {pending : List UInt64} (hd : d.Regular (start :: pending))
    (h : discoverBlock mem start d c = .ok (exits, d') c') :
    d'.Regular ((exits.map (·.2)).filter (fun target => !d'.blockOf.contains target) ++ pending) := by
  have hsettled : (Block.start start d.scratch c.slots).Settled := ⟨hd.valid, hd.free, nofun⟩
  obtain ⟨b, hb, rfl, -⟩ := discoverBlock_eq_ok h
  obtain ⟨hsettled', next, rfl⟩ := translateBlock_ok hsettled rfl hb
  have hsize : (d.graph.addBlock b.ops.toList).2.blocks.size = d.graph.blocks.size + 1 := by
    simp [Flow.Graph.addBlock]
  -- what has been found is what had been found before, and this block
  have hfound : ∀ {P : Nat × UInt64 × Exits → Prop}, (∀ x ∈ d.found.toList, P x) →
      P ((d.graph.addBlock b.ops.toList).1, start, exitsOf b.terminator next) →
      ∀ x ∈ (d.found.push ((d.graph.addBlock b.ops.toList).1, start,
        exitsOf b.terminator next)).toList, P x := by
    intro P hold hnew x hx
    rw [Array.toList_push, List.mem_append, List.mem_singleton] at hx
    rcases hx with hx | rfl
    · exact hold x hx
    · exact hnew
  exact
    { valid := hsettled'.valid
      free := hsettled'.free
      built := hd.built.addBlock _
      bare := fun n => (exits_addBlock _ _ n).trans (hd.bare n)
      numbered := by
        rw [hsize, List.range_succ, ← hd.numbered, Array.toList_push, List.map_append]
        rfl
      inRange := fun a n hn => by
        rw [hsize]
        rw [Std.HashMap.getElem?_insert] at hn
        split at hn
        · cases hn
          exact Nat.lt_succ_self _
        · exact Nat.lt_succ_of_lt (hd.inRange a n hn)
      closed := by
        refine hfound (fun x hx e he => ?_) fun e he => ?_ <;>
          rw [Std.HashMap.contains_insert, List.mem_append, List.mem_filter, Bool.or_eq_true,
            beq_iff_eq]
        · rcases hd.closed x hx e he with hc | hc
          · exact .inl (.inr hc)
          · rcases List.mem_cons.1 hc with heq | hc
            · exact .inl (.inl heq.symm)
            · exact .inr (.inr hc)
        · have hmem : e.2 ∈ (exitsOf b.terminator next).map (·.2) := List.mem_map_of_mem he
          by_cases hc : start = e.2 ∨ d.blockOf.contains e.2 = true
          · exact .inl hc
          · refine .inr (.inl ⟨hmem, ?_⟩)
            rw [Bool.not_eq_true', Std.HashMap.contains_insert, Bool.eq_false_iff, ne_eq,
              Bool.or_eq_true, beq_iff_eq]
            exact hc
      ended := hfound hd.ended (ended_exitsOf _ _)
      returns := by
        refine hfound (fun x hx hnil => ?_) fun hnil => ?_
        · obtain ⟨ops, y, hops, hy⟩ := hd.returns x hx hnil
          have hlt : x.1 < d.graph.blocks.size := by
            rw [← List.mem_range, ← hd.numbered]
            exact List.mem_map_of_mem hx
          exact ⟨ops, y, (bodyAt_addBlock_of_ne (Nat.ne_of_lt hlt) _).trans hops, hy⟩
        · obtain ⟨y, hy⟩ := hsettled'.returns (exitsOf_eq_nil hnil)
          exact ⟨b.ops.toList, y, bodyAt_addBlock_self _ _, hy⟩ }

lemma discoverBlock_error {start : UInt64} {d : Discovery} {e : Error} {c c' : Compiler}
    {pending : List UInt64} (hd : d.Regular pending)
    (h : discoverBlock mem start d c = .error e c') : e.IsRefusal := by
  have hsettled : (Block.start start d.scratch c.slots).Settled := ⟨hd.valid, hd.free, nofun⟩
  obtain ⟨b, hb⟩ := discoverBlock_eq_error h
  exact translateBlock_error hsettled rfl hb

/-- How discovery ends: every address is taken up, or the function is refused. -/
def Discovery.Completes (d : Discovery) (pending : List UInt64) :
    EStateM.Result Error Compiler Discovery → Prop
  | .ok d' _ => d'.Regular [] ∧ (∀ a, d.blockOf.contains a → d'.blockOf.contains a) ∧
    ∀ a ∈ pending, d'.blockOf.contains a
  | .error e _ => e.IsRefusal

lemma discover_completes (mem : Memory) (entry : UInt64) (fuel : Nat) {pending : List UInt64}
    {d : Discovery} (hd : d.Regular pending) (c : Compiler) :
    d.Completes pending (discover mem entry fuel pending d c) := by
  induction fuel generalizing pending d c with
  | zero => exact trivial
  | succ fuel ih =>
    cases pending with
    | nil => exact ⟨hd, fun _ h => h, nofun⟩
    | cons start pending =>
      rw [discover_cons]
      split
      · next hknown =>
        have hrest := ih (hd.skip hknown) c
        generalize discover mem entry fuel pending d c = r at hrest ⊢
        cases r with
        | error e c' => exact hrest
        | ok d' c' =>
          obtain ⟨hregular, hgrows, htaken⟩ := hrest
          exact ⟨hregular, hgrows, List.forall_mem_cons.2 ⟨hgrows start hknown, htaken⟩⟩
      · split
        · exact trivial
        · cases hb : discoverBlock mem start d c with
          | error e c' => exact discoverBlock_error hd hb
          | ok r c' =>
            obtain ⟨exits, d₁⟩ := r
            have hrest := ih (discoverBlock_regular hd hb) c'
            obtain ⟨hblockOf, -⟩ := discoverBlock_ok hb
            dsimp only at hrest ⊢
            generalize discover mem entry fuel _ d₁ c' = r' at hrest ⊢
            cases r' with
            | error e c'' => exact hrest
            | ok d' c'' =>
              obtain ⟨hregular, hgrows, htaken⟩ := hrest
              have hkept : ∀ a, start = a ∨ d.blockOf.contains a → d'.blockOf.contains a := by
                intro a ha
                refine hgrows a ?_
                rw [hblockOf, Std.HashMap.contains_insert, Bool.or_eq_true, beq_iff_eq]
                exact ha
              exact ⟨hregular, fun a ha => hkept a (.inr ha), List.forall_mem_cons.2
                ⟨hkept start (.inl rfl), fun a ha => htaken a (List.mem_append_right _ ha)⟩⟩

/-! ### Leading blocks to each other -/

/-- The exit that a way out of a block becomes. -/
def exitTo (blockOf : Std.HashMap UInt64 Nat) (e : Option Operand × UInt64) : Flow.Exit Operand :=
  ⟨e.1.map .cond, blockOf.getD e.2 0, none⟩

/-- A graph with more exits behind those of a block. -/
def WithExits (g : Flow.Graph (List Op) Operand) (node : Nat) (exits : List (Flow.Exit Operand))
    (g' : Flow.Graph (List Op) Operand) : Prop :=
  ∀ n, g'.blocks[n]? = (g.blocks[n]?).map fun b =>
    if n = node then { b with exits := b.exits ++ exits } else b

lemma withExits_nil (g : Flow.Graph (List Op) Operand) (node : Nat) : WithExits g node [] g := by
  intro n
  cases g.blocks[n]? <;> simp

lemma withExits_addExit (g : Flow.Graph (List Op) Operand) (node : Nat) (cond : Option Operand)
    (target : Nat) :
    WithExits g node [⟨cond.map .cond, target, none⟩] (g.addExit node cond target) := by
  intro n
  rw [Flow.Graph.addExit, Array.getElem?_modify]
  by_cases hn : node = n
  · subst hn
    simp
  · rw [if_neg hn]
    simp [Ne.symm hn]

lemma WithExits.trans {g g₁ g₂ : Flow.Graph (List Op) Operand} {node : Nat}
    {xs ys : List (Flow.Exit Operand)} (h : WithExits g node xs g₁)
    (h' : WithExits g₁ node ys g₂) : WithExits g node (xs ++ ys) g₂ := by
  intro n
  rw [h' n, h n, Option.map_map]
  congr 1
  funext b
  by_cases hn : n = node
  · simp [hn]
  · simp [hn]

lemma WithExits.exits {g g' : Flow.Graph (List Op) Operand} {node : Nat}
    {xs : List (Flow.Exit Operand)} (h : WithExits g node xs g') (n : Nat) :
    g'.exits n = if n = node ∧ n < g.blocks.size then g.exits n ++ xs else g.exits n := by
  rw [Flow.Graph.exits, h n, Flow.Graph.exits]
  cases hn : g.blocks[n]? with
  | none =>
    have hge := Array.getElem?_eq_none_iff.1 hn
    simp [Nat.not_lt_of_le hge]
  | some b =>
    obtain ⟨hlt, -⟩ := Array.getElem?_eq_some_iff.1 hn
    by_cases hnode : n = node
    · subst hnode
      simp [hlt]
    · simp [hnode]

lemma WithExits.body {g g' : Flow.Graph (List Op) Operand} {node : Nat}
    {xs : List (Flow.Exit Operand)} (h : WithExits g node xs g') (n : Nat) :
    bodyAt g' n = bodyAt g n := by
  rw [bodyAt, bodyAt, h n]
  cases g.blocks[n]? with
  | none => rfl
  | some b => by_cases hn : n = node <;> simp [hn]

/-- The ways out of a block become its exits. -/
lemma link_ok {blockOf : Std.HashMap UInt64 Nat} {g : Flow.Graph (List Op) Operand} (node : Nat)
    (source : UInt64) {exits : Exits} (hg : g.Built)
    (hknown : ∀ e ∈ exits, blockOf.contains e.2) :
    ∃ g', link blockOf g (node, source, exits) = .ok g' ∧ g'.Built ∧
      g'.blocks.size = g.blocks.size ∧ WithExits g node (exits.map (exitTo blockOf)) g' := by
  unfold link
  dsimp only
  induction exits generalizing g with
  | nil => exact ⟨g, rfl, hg, rfl, withExits_nil g node⟩
  | cons e rest ih =>
    obtain ⟨cond, target⟩ := e
    have htarget : blockOf[target]? = some (blockOf.getD target 0) := by
      have hmem := Std.HashMap.contains_iff_mem.1 (hknown _ List.mem_cons_self)
      rw [Std.HashMap.getD_eq_getD_getElem?]
      obtain ⟨block, hblock⟩ := Option.isSome_iff_exists.1 (Std.HashMap.isSome_getElem?_iff_mem.2 hmem)
      rw [hblock]
      rfl
    obtain ⟨g', hlink, hbuilt, hsize, hexits⟩ :=
      ih (hg.addExit node cond (blockOf.getD target 0))
        fun e he => hknown e (List.mem_cons_of_mem _ he)
    refine ⟨g', ?_, hbuilt, hsize.trans (by simp [Flow.Graph.addExit]),
      (withExits_addExit g node cond (blockOf.getD target 0)).trans hexits⟩
    rw [List.foldlM_cons]
    simp only [htarget]
    exact hlink

/-- The ways out of every block that has been found become its exits. -/
lemma foldlM_link_ok {blockOf : Std.HashMap UInt64 Nat} {g : Flow.Graph (List Op) Operand}
    (hg : g.Built) (found : List (Nat × UInt64 × Exits))
    (hknown : ∀ x ∈ found, ∀ e ∈ x.2.2, blockOf.contains e.2) (hnodup : (found.map (·.1)).Nodup)
    (hlt : ∀ x ∈ found, x.1 < g.blocks.size) :
    ∃ g', found.foldlM (link blockOf) g = .ok g' ∧ g'.Built ∧
      g'.blocks.size = g.blocks.size ∧ (∀ n, bodyAt g' n = bodyAt g n) ∧
      (∀ x ∈ found, g'.exits x.1 = g.exits x.1 ++ x.2.2.map (exitTo blockOf)) ∧
      ∀ n ∉ found.map (·.1), g'.exits n = g.exits n := by
  induction found generalizing g with
  | nil => exact ⟨g, rfl, hg, rfl, fun _ => rfl, nofun, fun _ _ => rfl⟩
  | cons x rest ih =>
    obtain ⟨node, source, exits⟩ := x
    rw [List.map_cons, List.nodup_cons] at hnodup
    rw [List.forall_mem_cons] at hknown hlt
    obtain ⟨g₁, hlink, hbuilt, hsize, hexits⟩ := link_ok node source hg hknown.1
    obtain ⟨g', hrest, hbuilt', hsize', hbody', hexits', hkept'⟩ :=
      ih hbuilt hknown.2 hnodup.2 (hsize ▸ hlt.2)
    -- the blocks of the others keep the exits that they have
    have hapart : ∀ n, n ≠ node → g₁.exits n = g.exits n := fun n hn => by
      rw [hexits.exits, if_neg fun h => hn h.1]
    refine ⟨g', ?_, hbuilt', hsize'.trans hsize, fun n => (hbody' n).trans (hexits.body n),
      List.forall_mem_cons.2 ⟨?_, fun x hx => ?_⟩, fun n hn => ?_⟩
    · rw [List.foldlM_cons, hlink]
      exact hrest
    · rw [hkept' node hnodup.1, hexits.exits, if_pos ⟨rfl, hlt.1⟩]
    · have hmem : x.1 ∈ rest.map (·.1) := List.mem_map_of_mem hx
      have hne : x.1 ≠ node := fun h => hnodup.1 (h ▸ hmem)
      rw [hexits' x hx, hapart x.1 hne]
    · rw [List.map_cons, List.mem_cons, not_or] at hn
      rw [hkept' n hn.2, hapart n hn.1]

lemma Exits.Ended.complete {exits : Exits} (h : exits.Ended) (blockOf : Std.HashMap UInt64 Nat) :
    exits.map (exitTo blockOf) = [] ∨ Flow.Complete (exits.map (exitTo blockOf)) := by
  cases h with
  | none => exact .inl rfl
  | one target => exact .inr (.last rfl)
  | two cond target next => exact .inr (.test rfl (.last rfl))

/-- A graph of blocks that passes the checks before its structured form, and in which blocks without
exits return. -/
structure Whole (g : Flow.Graph (List Op) Operand) : Prop where
  built : g.Built
  valid : g.validate = .ok ()
  returns : ∀ n < g.blocks.size, g.exits n = [] → ∃ ops y, bodyAt g n = some ops ∧ .ret y ∈ ops

lemma exists_getElem?_of_contains {blockOf : Std.HashMap UInt64 Nat} {a : UInt64}
    (h : blockOf.contains a) : blockOf[a]? = some (blockOf.getD a 0) := by
  obtain ⟨n, hn⟩ := Option.isSome_iff_exists.1
    (Std.HashMap.isSome_getElem?_iff_mem.2 (Std.HashMap.contains_iff_mem.1 h))
  rw [Std.HashMap.getD_eq_getD_getElem?, hn]
  rfl

/-- A graph of the blocks that have been found, in which the ways out of every block are its exits. -/
structure Discovery.Connected (d : Discovery) (g : Flow.Graph (List Op) Operand) : Prop where
  linked : d.found.toList.foldlM (link d.blockOf) d.graph = .ok g
  built : g.Built
  size : g.blocks.size = d.graph.blocks.size
  bodies : ∀ n, bodyAt g n = bodyAt d.graph n
  exits : ∀ x ∈ d.found.toList, g.exits x.1 = x.2.2.map (exitTo d.blockOf)

/-- Every address that a way out leads to has a block, once all are taken up. -/
lemma Discovery.Regular.taken {d : Discovery} (h : d.Regular []) :
    ∀ x ∈ d.found.toList, ∀ e ∈ x.2.2, d.blockOf.contains e.2 :=
  fun x hx e he => (h.closed x hx e he).resolve_right List.not_mem_nil

lemma Discovery.Regular.exists_connected {d : Discovery} (h : d.Regular []) : ∃ g, d.Connected g := by
  have hlt : ∀ x ∈ d.found.toList, x.1 < d.graph.blocks.size := fun x hx => by
    rw [← List.mem_range, ← h.numbered]
    exact List.mem_map_of_mem hx
  obtain ⟨g, hlink, hbuilt, hsize, hbody, hexits, -⟩ := foldlM_link_ok h.built d.found.toList h.taken
    (h.numbered ▸ List.nodup_range) hlt
  exact ⟨g, hlink, hbuilt, hsize, hbody, fun x hx => by rw [hexits x hx, h.bare, List.nil_append]⟩

/-- Everything that is found can be put together to a whole graph. -/
lemma Discovery.Regular.whole {d : Discovery} (h : d.Regular []) {entry : UInt64}
    (hentry : d.blockOf.contains entry) :
    ∃ g block, d.found.toList.foldlM (link d.blockOf) d.graph = .ok g ∧
      d.blockOf[entry]? = some block ∧ Whole (g.setEntry block) := by
  have hknown := h.taken
  obtain ⟨g, hlink, hbuilt, hsize, hbody, hexits⟩ := h.exists_connected
  have hblock := exists_getElem?_of_contains hentry
  -- every block is one that has been found
  have hfound : ∀ n < g.blocks.size, ∃ x ∈ d.found.toList, x.1 = n ∧
      g.exits n = x.2.2.map (exitTo d.blockOf) := by
    intro n hn
    rw [hsize, ← List.mem_range, ← h.numbered] at hn
    obtain ⟨x, hx, rfl⟩ := List.mem_map.1 hn
    exact ⟨x, hx, rfl, hexits x hx⟩
  have hin : ∀ a, d.blockOf.contains a → d.blockOf.getD a 0 < g.blocks.size := fun a ha => by
    rw [hsize]
    exact h.inRange _ _ (exists_getElem?_of_contains ha)
  refine ⟨g, _, hlink, hblock, hbuilt.setEntry _, ?_, fun n hn hnil => ?_⟩
  · apply Flow.Graph.validate_of_complete
    · refine ⟨hin entry hentry, fun {u w} he => ?_⟩
      obtain ⟨x, hx, rfl, hex⟩ := hfound u he.lt
      have htarget : w ∈ (g.exits x.1).map (·.target) := he
      rw [hex, List.map_map] at htarget
      obtain ⟨e, hmem, rfl⟩ := List.mem_map.1 htarget
      exact hin e.2 (hknown x hx e hmem)
    · intro n
      change g.exits n = [] ∨ Flow.Complete (g.exits n)
      by_cases hn : n < g.blocks.size
      · obtain ⟨x, hx, rfl, hex⟩ := hfound n hn
        rw [hex]
        exact (h.ended x hx).complete d.blockOf
      · left
        rw [Flow.Graph.exits, Array.getElem?_eq_none (Nat.le_of_not_lt hn)]
  · obtain ⟨x, hx, rfl, hex⟩ := hfound n hn
    have hnone : x.2.2 = [] := List.map_eq_nil_iff.1 (hex.symm.trans hnil)
    obtain ⟨ops, y, hops, hy⟩ := h.returns x hx hnone
    exact ⟨ops, y, (hbody x.1).trans hops, hy⟩

end Compiler

end Dynarec
