import Dynarec.Proofs.Compiler.Discovery
import Dynarec.Proofs.Compiler.Ordinary
import Dynarec.Proofs.Flow.Natural
import Dynarec.Proofs.Ir.Relocate
import Dynarec.Proofs.Linking.Slots

/-!
# Compiled code and its links

What a function is compiled to hangs on the words that are fetched for it and on the limits of the
compiler. The slot table shows in the slots of its calls only: these are the slots of the addresses
that the words call. Code is described before it is linked, with the address that it calls in the
place of the slot, and linked by putting the slots in.
-/

namespace Dynarec.Compiler

open Ir (Op Operand)
open Linking (Code Slots)

/-! ### Words -/

/-- The word at an address. -/
def wordAt (mem : Memory) (pc : UInt64) : Option UInt32 :=
  match mem.read pc .word with
  | .ok word => some word.toUInt32
  | .error _ => none

/-- The instruction that a word encodes. -/
def instrOf (word : UInt32) : Option Instr :=
  match Instr.decode word with
  | .ok (form, fields) => (form.read fields).toOption
  | .error _ => none

/-- The instruction at an address. -/
def instrAt (mem : Memory) (pc : UInt64) : Option Instr := (wordAt mem pc).bind instrOf

/-- Two memories have the same words at some addresses. -/
def Agree (words : List UInt64) (mem mem' : Memory) : Prop :=
  ∀ pc ∈ words, wordAt mem pc = wordAt mem' pc

lemma Agree.of_append {words words' : List UInt64} {mem mem' : Memory}
    (h : Agree (words ++ words') mem mem') : Agree words mem mem' ∧ Agree words' mem mem' :=
  List.forall_mem_append.mp h

lemma lowerWord_eq (word : UInt32) :
    lowerWord word = match instrOf word with
      | some i => lower i
      | none => invalid := by
  unfold lowerWord instrOf
  cases Instr.decode word with
  | error e => rfl
  | ok r => cases h : r.1.read r.2 <;> simp only [h] <;> rfl

lemma translateWord_eq (mem : Memory) (pc : UInt64) (b : Block) :
    translateWord mem pc b = match wordAt mem pc with
      | some word => lowerWord word { b with pc, word }
      | none => .error (.fetchOutOfBounds pc) b := by
  unfold translateWord wordAt
  cases mem.read pc .word <;> rfl

/-! ### Code before it is linked -/

/-- The instruction before a return address calls an address. -/
def Calls (mem : Memory) (link target : UInt64) : Prop :=
  ∃ offset, instrAt mem (link - 4) = some (.branch true offset) ∧ target = link - 4 + offset

/-- Operations whose calls are those of instructions in memory to some addresses: each follows the
write of its return address and has the address that it calls in the place of a slot. -/
inductive Unlinked (mem : Memory) (asked : List UInt64) : List Op → Prop where
  | nil : Unlinked mem asked []
  | plain {op : Op} {rest : List Op} : op.any Op.isCall = false → Unlinked mem asked rest →
    Unlinked mem asked (op :: rest)
  | call {dst : Ir.Place} {link target : UInt64} {rest : List Op} : Calls mem link target →
    target ∈ asked → Unlinked mem asked rest →
    Unlinked mem asked (.mov .w64 (.x 30) (.imm link) :: .call dst target.toNat :: rest)

section
variable {mem : Memory} {asked : List UInt64} {ops rest : List Op}

lemma CallFree.unlinked (h : CallFree ops) : Unlinked mem asked ops := by
  unfold CallFree at h
  induction ops with
  | nil => exact .nil
  | cons op ops ih =>
    rw [Op.anyOf, Bool.or_eq_false_iff] at h
    exact .plain h.1 (ih h.2)

lemma Unlinked.append (h : Unlinked mem asked ops) (h' : Unlinked mem asked rest) :
    Unlinked mem asked (ops ++ rest) := by
  induction h with
  | nil => exact h'
  | plain hop _ ih => exact .plain hop ih
  | call hcalls hasked _ ih => exact .call hcalls hasked ih

lemma Unlinked.mono (h : Unlinked mem asked ops) {asked' : List UInt64}
    (hsub : asked ⊆ asked') : Unlinked mem asked' ops := by
  induction h with
  | nil => exact .nil
  | plain hop _ ih => exact .plain hop ih
  | call hcalls hasked _ ih => exact .call hcalls (hsub hasked) ih

/-- Linking looks up only the addresses that are called. -/
lemma Unlinked.relocate_congr (h : Unlinked mem asked ops) {ρ ρ' : Nat → Nat}
    (hρ : ∀ a ∈ asked, ρ a.toNat = ρ' a.toNat) :
    Op.relocateAll ρ ops = Op.relocateAll ρ' ops := by
  induction h with
  | nil => rfl
  | plain hop _ ih =>
    rw [Ir.relocateAll_cons, Ir.relocateAll_cons, Ir.relocate_of_any hop, Ir.relocate_of_any hop, ih]
  | call _ hasked _ ih =>
    simp only [Ir.relocateAll_cons, Op.relocate, ih, hρ _ hasked]

end

/-- Addresses that have slots. -/
def Assigned (slots : Slots Code) (asked : List UInt64) : Prop :=
  ∀ a ∈ asked, ∃ slot, slots.ofAddr[a]? = some slot

lemma assigned_ask (slots : Slots Code) (asked : List UInt64) :
    Assigned (slots.ask asked) asked := fun _ h => Slots.exists_ofAddr_ask h

lemma Assigned.ask {slots : Slots Code} {asked : List UInt64} (h : Assigned slots asked)
    (more : List UInt64) : Assigned (slots.ask more) asked := by
  intro a ha
  obtain ⟨slot, hslot⟩ := h a ha
  exact ⟨slot, Slots.ofAddr_ask_of_some hslot more⟩

/-- Code that is linked stays linked when further addresses get slots. -/
lemma Unlinked.relocate_ask {mem : Memory} {asked : List UInt64} {ops : List Op}
    (h : Unlinked mem asked ops) {slots : Slots Code} (hslots : Assigned slots asked)
    (more : List UInt64) :
    Op.relocateAll (slots.ask more).slotOf ops = Op.relocateAll slots.slotOf ops := by
  apply h.relocate_congr
  intro a ha
  obtain ⟨slot, hslot⟩ := hslots a ha
  exact Slots.slotOf_ask hslot more

/-! ### Compiling words -/

/-- What compiling words into a block yields: the way it ends, the operations that are appended,
and what it leaves. -/
structure Yield (α : Type) where
  result : Except Error α
  pc : UInt64
  word : UInt32
  added : List Op
  terminator : Option Terminator
  scratch : Ir.Scratch
  asked : List UInt64

/-- What is yielded, linked and put behind some operations. -/
def Yield.on {α : Type} (y : Yield α) (ops : Array Op) (slots : Slots Code) :
    EStateM.Result Error Block α :=
  endIn y.result ⟨y.pc, y.word, ops ++ Op.relocateAll (slots.ask y.asked).slotOf y.added,
    y.terminator, y.scratch, slots.ask y.asked⟩

/-- What is yielded from memory: operations to be linked, or an error of compiling. -/
structure Yield.Fair {α : Type} (mem : Memory) (y : Yield α) : Prop where
  unlinked : Unlinked mem y.asked y.added
  honest : Honest y.result

variable {mem : Memory}

/-- An ordinary instruction has no links. -/
lemma Ordinary.yields {α : Type} {m : EmitM α} [hm : Ordinary m] (pc : UInt64) (word : UInt32)
    (terminator : Option Terminator) (scratch : Ir.Scratch) :
    ∃ y : Yield α, y.Fair mem ∧ y.pc = pc ∧
      ∀ ops slots, m ⟨pc, word, ops, terminator, scratch, slots⟩ = y.on ops slots := by
  obtain ⟨result, added, terminator', scratch', hfree, hresult, h⟩ :=
    hm.acts pc terminator scratch
  refine ⟨⟨about word result, pc, word, added, terminator', scratch', []⟩,
    ⟨hfree.unlinked, hresult word⟩, rfl, ?_⟩
  intro ops slots
  rw [h, Yield.on, Ir.relocateAll_of_anyOf hfree]
  rfl

/-- A call of a fixed address has one. -/
lemma call_yields {target pc : UInt64} (hcalls : Calls mem (pc + 4) target) (word : UInt32)
    (terminator : Option Terminator) (scratch : Ir.Scratch) :
    ∃ y : Yield Unit, y.Fair mem ∧ y.pc = pc ∧
      ∀ ops slots, call target (pc + 4) ⟨pc, word, ops, terminator, scratch, slots⟩ =
        y.on ops slots := by
  have hrest : Ordinary (do
      returnUnless (scratch.alloc .i64).1 (pc + 4)
      release (scratch.alloc .i64).1) := inferInstance
  obtain ⟨result, added, terminator', scratch', hfree, hresult, h⟩ :=
    hrest.acts pc terminator (scratch.alloc .i64).2
  refine ⟨⟨about word result, pc, word, .mov .w64 (.x 30) (.imm (pc + 4)) ::
    .call (scratch.alloc .i64).1 target.toNat :: added, terminator', scratch', [target]⟩,
    ⟨.call hcalls List.mem_cons_self hfree.unlinked, hresult word⟩, rfl, ?_⟩
  intro ops slots
  have hslot : (slots.ask [target]).slotOf target.toNat = (slots.functionSlot target).1 := by
    rw [Slots.slotOf, UInt64.ofNat_toNat]
    exact congrArg (·.getD 0) (Slots.ofAddr_functionSlot slots target)
  have hops : ops ++ (Op.mov .w64 (.x 30) (.imm (pc + 4)) ::
      .call (scratch.alloc .i64).1 (slots.functionSlot target).1 :: added) =
      (ops.push (.mov .w64 (.x 30) (.imm (pc + 4)))).push
        (.call (scratch.alloc .i64).1 (slots.functionSlot target).1) ++ added := by
    rw [Array.appendList_cons, Array.appendList_cons]
  simp only [Yield.on, Ir.relocateAll_cons, Op.relocate, hslot, Ir.relocateAll_of_anyOf hfree, hops]
  exact h word _ (slots.functionSlot target).2

/-- What a word is compiled to hangs on the word alone. -/
lemma translateWord_yields (mem : Memory) (pc pc₀ : UInt64) (word₀ : UInt32)
    (terminator : Option Terminator) (scratch : Ir.Scratch) :
    ∃ y : Yield Unit, y.Fair mem ∧ ∀ mem', Agree [pc] mem mem' →
      ∀ ops slots, translateWord mem' pc ⟨pc₀, word₀, ops, terminator, scratch, slots⟩ =
        y.on ops slots := by
  cases hword : wordAt mem pc with
  | none =>
    refine ⟨⟨.error (.fetchOutOfBounds pc), pc₀, word₀, [], terminator, scratch, []⟩,
      ⟨.nil, honest_error trivial⟩, ?_⟩
    intro mem' hagree ops slots
    have hword' : wordAt mem' pc = none := (hagree pc List.mem_cons_self).symm.trans hword
    simp only [translateWord_eq, hword', Yield.on, Ir.relocateAll_nil, Array.appendList_nil]
    rfl
  | some word =>
    have htranslate : ∀ mem', Agree [pc] mem mem' → ∀ ops slots,
        translateWord mem' pc ⟨pc₀, word₀, ops, terminator, scratch, slots⟩ =
          lowerWord word ⟨pc, word, ops, terminator, scratch, slots⟩ := by
      intro mem' hagree ops slots
      have hword' : wordAt mem' pc = some word := (hagree pc List.mem_cons_self).symm.trans hword
      rw [translateWord_eq, hword']
    suffices h : ∃ y : Yield Unit, y.Fair mem ∧ y.pc = pc ∧ ∀ ops slots,
        lowerWord word ⟨pc, word, ops, terminator, scratch, slots⟩ = y.on ops slots by
      obtain ⟨y, hy, -, h⟩ := h
      exact ⟨y, hy, fun mem' hagree ops slots => (htranslate mem' hagree ops slots).trans (h _ _)⟩
    rw [lowerWord_eq]
    cases hinstr : instrOf word with
    | none => exact Ordinary.yields pc word terminator scratch
    | some i =>
      by_cases hcall : ∃ offset, i = .branch true offset
      · obtain ⟨offset, rfl⟩ := hcall
        have hcalls : Calls mem (pc + 4) (pc + offset) := by
          refine ⟨offset, ?_, ?_⟩
          · rw [UInt64.add_sub_cancel, instrAt, hword, Option.bind_some, hinstr]
          · rw [UInt64.add_sub_cancel]
        exact call_yields hcalls word terminator scratch
      · have := ordinary_lower fun offset h => hcall ⟨offset, h⟩
        exact Ordinary.yields pc word terminator scratch

/-- The addresses of the words that `translate` fetches. -/
def translated (mem : Memory) (known : UInt64 → Bool) : Nat → UInt64 → Block → List UInt64
  | 0, _, _ => []
  | fuel + 1, pc, b => pc ::
    match translateWord mem pc b with
    | .error _ _ => []
    | .ok _ b =>
      if b.terminator.isSome ∨ known (pc + 4) then [] else translated mem known fuel (pc + 4) b

lemma translate_yields (mem : Memory) (known : UInt64 → Bool) (fuel : Nat) (pc pc₀ : UInt64)
    (word₀ : UInt32) (terminator : Option Terminator) (scratch : Ir.Scratch) :
    ∃ (y : Yield UInt64) (words : List UInt64), y.Fair mem ∧
      ∀ mem', Agree words mem mem' → ∀ ops slots,
        translate mem' known fuel pc ⟨pc₀, word₀, ops, terminator, scratch, slots⟩ =
          y.on ops slots ∧
        translated mem' known fuel pc ⟨pc₀, word₀, ops, terminator, scratch, slots⟩ = words := by
  induction fuel generalizing pc pc₀ word₀ terminator scratch with
  | zero =>
    refine ⟨⟨.error (.fetchOutOfBounds pc), pc₀, word₀, [], terminator, scratch, []⟩, [],
      ⟨.nil, honest_error trivial⟩, ?_⟩
    intro mem' _ ops slots
    simp only [translate, Yield.on, Ir.relocateAll_nil, Array.appendList_nil, translated, and_true]
    rfl
  | succ fuel ih =>
    obtain ⟨y, hy, h⟩ := translateWord_yields mem pc pc₀ word₀ terminator scratch
    obtain ⟨result, pc₁, word₁, added, terminator₁, scratch₁, asked⟩ := y
    cases result with
    | error e =>
      refine ⟨⟨.error e, pc₁, word₁, added, terminator₁, scratch₁, asked⟩, [pc],
        ⟨hy.unlinked, hy.honest.cast⟩, ?_⟩
      intro mem' hagree ops slots
      have hword := h mem' hagree ops slots
      exact ⟨by rw [translate_succ, hword]; rfl, by rw [translated, hword]; rfl⟩
    | ok u =>
      by_cases hlast : terminator₁.isSome ∨ known (pc + 4)
      · refine ⟨⟨.ok (pc + 4), pc₁, word₁, added, terminator₁, scratch₁, asked⟩, [pc],
          ⟨hy.unlinked, honest_ok _⟩, ?_⟩
        intro mem' hagree ops slots
        have hword := h mem' hagree ops slots
        constructor
        · rw [translate_succ, hword]
          exact if_pos hlast
        · rw [translated, hword]
          exact congrArg _ (if_pos hlast)
      · obtain ⟨y', words, hy', h'⟩ := ih (pc + 4) pc₁ word₁ terminator₁ scratch₁
        refine ⟨⟨y'.result, y'.pc, y'.word, added ++ y'.added, y'.terminator, y'.scratch,
          asked ++ y'.asked⟩, pc :: words, ⟨?_, hy'.honest⟩, ?_⟩
        · exact (hy.unlinked.mono (List.subset_append_left _ _)).append
            (hy'.unlinked.mono (List.subset_append_right _ _))
        · intro mem' hagree ops slots
          obtain ⟨hpc, hwords⟩ : Agree [pc] mem mem' ∧ Agree words mem mem' := Agree.of_append hagree
          have hword := h mem' hpc ops slots
          obtain ⟨htranslate, htranslated⟩ := h' mem' hwords
            (ops ++ Op.relocateAll (slots.ask asked).slotOf added) (slots.ask asked)
          constructor
          · rw [translate_succ, hword]
            refine (if_neg hlast).trans (htranslate.trans ?_)
            simp only [Yield.on, Slots.ask_append, Ir.relocateAll_append,
              hy.unlinked.relocate_ask (assigned_ask slots asked), appendList_appendList]
          · rw [translated, hword]
            exact congrArg _ ((if_neg hlast).trans htranslated)

/-- The addresses of the words of a block are the same for all fuel that is enough. -/
lemma translated_fuel {mem : Memory} (hmem : mem.size < 2 ^ 64) (known : UInt64 → Bool)
    {fuel fuel' : Nat} (pc : UInt64) (b : Block) (hfuel : mem.size - pc.toNat < fuel)
    (hle : fuel ≤ fuel') : translated mem known fuel' pc b = translated mem known fuel pc b := by
  induction fuel generalizing fuel' pc b with
  | zero => omega
  | succ fuel ih =>
    cases fuel' with
    | zero => omega
    | succ fuel' =>
      rw [translated, translated]
      cases h : translateWord mem pc b with
      | error e b₁ => rfl
      | ok u b₁ =>
        have hpc := translateWord_ok h
        have hnext : (pc + 4).toNat = pc.toNat + 4 := by
          rw [UInt64.toNat_add]
          exact Nat.mod_eq_of_lt (lt_of_le_of_lt hpc hmem)
        dsimp only
        split
        · rfl
        · rw [ih (pc + 4) b₁ (by omega) (by omega)]

/-- The addresses of the words that are fetched for the block that starts at an address. -/
def blockWords (mem : Memory) (known : UInt64 → Bool) (start : UInt64) (b : Block) : List UInt64 :=
  translated mem known (mem.size + 1) start b

/-- Memories of one size, or of sizes that addresses can tell. -/
def Comparable (mem mem' : Memory) : Prop :=
  mem'.size = mem.size ∨ mem.size < 2 ^ 64 ∧ mem'.size < 2 ^ 64

lemma Comparable.symm {mem mem' : Memory} (h : Comparable mem mem') : Comparable mem' mem := by
  rcases h with h | h
  · exact .inl h.symm
  · exact .inr h.symm

/-- One bound for the number of words of a block is enough for all memories that compare. -/
lemma exists_fuel (mem : Memory) (known : UInt64 → Bool) (start : UInt64) :
    ∃ fuel, ∀ mem', Comparable mem mem' → ∀ b,
      translate mem' known (mem'.size + 1) start b = translate mem' known fuel start b ∧
        blockWords mem' known start b = translated mem' known fuel start b := by
  by_cases hmem : mem.size < 2 ^ 64
  · refine ⟨2 ^ 64, fun mem' h b => ?_⟩
    have hmem' : mem'.size < 2 ^ 64 := by
      rcases h with h | h
      · omega
      · exact h.2
    exact ⟨(translate_fuel hmem' known start b (by omega) (Nat.succ_le_of_lt hmem')).symm,
      (translated_fuel hmem' known start b (by omega) (Nat.succ_le_of_lt hmem')).symm⟩
  · refine ⟨mem.size + 1, fun mem' h b => ?_⟩
    have hsize : mem'.size = mem.size := h.resolve_right fun h => hmem h.1
    rw [blockWords, hsize]
    exact ⟨rfl, rfl⟩

lemma translateBlock_yields (mem : Memory) (known : UInt64 → Bool) (start pc₀ : UInt64)
    (word₀ : UInt32) (terminator : Option Terminator) (scratch : Ir.Scratch) :
    ∃ (y : Yield Exits) (words : List UInt64), y.Fair mem ∧
      ∀ mem', Comparable mem mem' → Agree words mem mem' → ∀ ops slots,
        translateBlock mem' known start ⟨pc₀, word₀, ops, terminator, scratch, slots⟩ =
          y.on ops slots ∧
        blockWords mem' known start ⟨pc₀, word₀, ops, terminator, scratch, slots⟩ = words := by
  obtain ⟨fuel, hfuel⟩ := exists_fuel mem known start
  obtain ⟨y, words, hy, h⟩ :=
    translate_yields mem known fuel start pc₀ word₀ terminator scratch
  have hsteps : ∀ mem', Comparable mem mem' → Agree words mem mem' → ∀ ops slots,
      translate mem' known (mem'.size + 1) start ⟨pc₀, word₀, ops, terminator, scratch, slots⟩ =
        y.on ops slots ∧
      blockWords mem' known start ⟨pc₀, word₀, ops, terminator, scratch, slots⟩ = words := by
    intro mem' hmem' hagree ops slots
    rw [(hfuel mem' hmem' _).1, (hfuel mem' hmem' _).2]
    exact h mem' hagree ops slots
  obtain ⟨result, pc₁, word₁, added, terminator₁, scratch₁, asked⟩ := y
  cases result with
  | error e =>
    refine ⟨⟨.error e, pc₁, word₁, added, terminator₁, scratch₁, asked⟩, words,
      ⟨hy.unlinked, hy.honest.cast⟩, ?_⟩
    intro mem' hmem' hagree ops slots
    obtain ⟨htranslate, hwords⟩ := hsteps mem' hmem' hagree ops slots
    exact ⟨by rw [translateBlock_eq, htranslate]; rfl, hwords⟩
  | ok next =>
    by_cases hheld : scratch₁.heldCount ≠ 0
    · refine ⟨⟨.error (.invariant (.unreleasedScratch pc₁ scratch₁.heldCount)), pc₁, word₁, added,
        terminator₁, scratch₁, asked⟩, words, ⟨hy.unlinked, honest_error trivial⟩, ?_⟩
      intro mem' hmem' hagree ops slots
      obtain ⟨htranslate, hwords⟩ := hsteps mem' hmem' hagree ops slots
      exact ⟨by rw [translateBlock_eq, htranslate]; exact if_pos hheld, hwords⟩
    · refine ⟨⟨.ok (exitsOf terminator₁ next), pc₁, word₁, added, terminator₁, scratch₁, asked⟩,
        words, ⟨hy.unlinked, honest_ok _⟩, ?_⟩
      intro mem' hmem' hagree ops slots
      obtain ⟨htranslate, hwords⟩ := hsteps mem' hmem' hagree ops slots
      exact ⟨by rw [translateBlock_eq, htranslate]; exact if_neg hheld, hwords⟩

/-! ### Finding functions -/

/-- What is found of a function, linked. -/
def Discovery.link (ρ : Nat → Nat) (d : Discovery) : Discovery :=
  { d with graph := d.graph.map (Op.relocateAll ρ) id }

/-- What is found of a function before it is linked. -/
def Discovery.Unlinked (mem : Memory) (asked : List UInt64) (d : Discovery) : Prop :=
  d.graph.All (Compiler.Unlinked mem asked) fun _ => True

/-- Code that is found and linked stays linked when further addresses get slots. -/
lemma Discovery.Unlinked.link_ask {asked : List UInt64} {d : Discovery}
    (h : d.Unlinked mem asked) {slots : Slots Code} (hslots : Assigned slots asked)
    (more : List UInt64) : d.link (slots.ask more).slotOf = d.link slots.slotOf := by
  rw [Discovery.link, Discovery.link,
    Flow.Graph.map_congr_of_all h fun ops hops => hops.relocate_ask hslots more]

lemma Discovery.Unlinked.mono {asked asked' : List UInt64} {d : Discovery}
    (h : d.Unlinked mem asked) (hsub : asked ⊆ asked') : d.Unlinked mem asked' :=
  fun b hb => ⟨fun body hbody => ((h b hb).1 body hbody).mono hsub, (h b hb).2⟩

/-- What finding something yields: the way it ends, the addresses that get slots, and the number of
blocks. -/
structure Finding (α : Type) where
  result : Except Error α
  asked : List UInt64
  blocks : Nat

lemma Discovery.link_start (ρ : Nat → Nat) : Discovery.start.link ρ = .start := by
  simp [Discovery.link, Discovery.start, Flow.Graph.map, Flow.Graph.empty]

/-- What is found, linked in a compiler. -/
def Finding.on {α : Type} (y : Finding α) (link : (Nat → Nat) → α → α) (c : Compiler) :
    EStateM.Result Error Compiler α :=
  endIn (y.result.map (link (c.slots.ask y.asked).slotOf))
    { c with slots := c.slots.ask y.asked, blocksDiscovered := c.blocksDiscovered + y.blocks }

/-- The block at an address is the same, however what is found is linked. -/
lemma discoverBlock_link (mem : Memory) (start : UInt64) (ρ : Nat → Nat) (d : Discovery)
    (c : Compiler) :
    discoverBlock mem start (d.link ρ) c =
      match translateBlock mem d.blockOf.contains start (.start start d.scratch c.slots) with
      | .error e b => .error e { c with slots := b.slots }
      | .ok exits b =>
        let (node, graph) := (d.link ρ).graph.addBlock b.ops.toList
        .ok (exits, ⟨b.scratch, graph, d.blockOf.insert start node,
            d.found.push (node, start, exits)⟩)
          { c with slots := b.slots, blocksDiscovered := c.blocksDiscovered + 1 } := rfl

lemma discoverBlock_yields (start : UInt64) {asked : List UInt64} {d : Discovery}
    (hd : d.Unlinked mem asked) :
    ∃ (y : Finding (Exits × Discovery)) (words : List UInt64), Honest y.result ∧
      (∀ exits d', y.result = .ok (exits, d') → d'.Unlinked mem (asked ++ y.asked)) ∧
      ∀ mem', Comparable mem mem' → Agree words mem mem' → ∀ c, Assigned c.slots asked →
        discoverBlock mem' start (d.link c.slots.slotOf) c =
          y.on (fun ρ r => (r.1, r.2.link ρ)) c ∧
        blockWords mem' d.blockOf.contains start (.start start d.scratch c.slots) = words := by
  obtain ⟨y, words, hy, h⟩ :=
    translateBlock_yields mem d.blockOf.contains start start 0 none d.scratch
  obtain ⟨result, pc₁, word₁, added, terminator₁, scratch₁, more⟩ := y
  cases result with
  | error e =>
    refine ⟨⟨.error e, more, 0⟩, words, hy.honest.cast, nofun, ?_⟩
    intro mem' hmem' hagree c hslots
    obtain ⟨hblock, hwords⟩ := h mem' hmem' hagree #[] c.slots
    refine ⟨?_, hwords⟩
    rw [discoverBlock_link, Block.start, hblock]
    rfl
  | ok exits =>
    refine ⟨⟨.ok (exits, ⟨scratch₁, (d.graph.addBlock added).2,
      d.blockOf.insert start (d.graph.addBlock added).1,
      d.found.push ((d.graph.addBlock added).1, start, exits)⟩), more, 1⟩, words, honest_ok _,
      ?_, ?_⟩
    · rintro exits' d' h
      cases h
      exact Flow.Graph.all_addBlock (hd.mono (List.subset_append_left _ _))
        (hy.unlinked.mono (List.subset_append_right _ _))
    · intro mem' hmem' hagree c hslots
      obtain ⟨hblock, hwords⟩ := h mem' hmem' hagree #[] c.slots
      refine ⟨?_, hwords⟩
      have hadd := Flow.Graph.addBlock_map (f := Op.relocateAll (c.slots.ask more).slotOf)
        (h := (id : Operand → Operand)) (g := d.graph) added
      rw [discoverBlock_link, Block.start, hblock]
      rw [← hd.link_ask hslots more]
      have hops : ((#[] : Array Op) ++ Op.relocateAll (c.slots.ask more).slotOf added).toList =
          Op.relocateAll (c.slots.ask more).slotOf added := by simp
      simp only [Yield.on, endIn, Finding.on, Except.map, Discovery.link, hops, hadd]

/-- The addresses of the words that `discover` fetches. -/
def discovered (mem : Memory) (entry : UInt64) :
    Nat → List UInt64 → Discovery → Compiler → List UInt64
  | 0, _, _, _ => []
  | _ + 1, [], _, _ => []
  | fuel + 1, start :: pending, d, c =>
    if d.blockOf.contains start then discovered mem entry fuel pending d c
    else if c.config.maxBlocks ≤ d.blockOf.size then []
    else
      blockWords mem d.blockOf.contains start (.start start d.scratch c.slots) ++
        match discoverBlock mem start d c with
        | .error _ _ => []
        | .ok (exits, d') c' =>
          discovered mem entry fuel
            ((exits.map (·.2)).filter (fun target => !d'.blockOf.contains target) ++ pending) d' c'

lemma discover_yields (entry : UInt64) (limit fuel : Nat) (pending : List UInt64)
    {asked : List UInt64} {d : Discovery} (hd : d.Unlinked mem asked) :
    ∃ (y : Finding Discovery) (words : List UInt64), Honest y.result ∧
      (∀ d', y.result = .ok d' → d'.Unlinked mem (asked ++ y.asked)) ∧
      ∀ mem', Comparable mem mem' → Agree words mem mem' →
        ∀ c, c.config.maxBlocks = limit → Assigned c.slots asked →
          discover mem' entry fuel pending (d.link c.slots.slotOf) c = y.on Discovery.link c ∧
          discovered mem' entry fuel pending (d.link c.slots.slotOf) c = words := by
  induction fuel generalizing pending asked d with
  | zero =>
    refine ⟨⟨.error (.blockLimit entry limit), [], 0⟩, [], honest_error trivial, nofun, ?_⟩
    rintro mem' - - c rfl -
    exact ⟨rfl, rfl⟩
  | succ fuel ih =>
    cases pending with
    | nil =>
      refine ⟨⟨.ok d, [], 0⟩, [], honest_ok d, ?_, fun mem' _ _ c _ _ => ⟨rfl, rfl⟩⟩
      rintro d' ⟨⟩
      rwa [List.append_nil]
    | cons start pending =>
      by_cases hknown : d.blockOf.contains start = true
      · obtain ⟨y, words, hresult, hy, h⟩ := ih pending hd
        refine ⟨y, words, hresult, hy, fun mem' hmem' hagree c hc hslots => ?_⟩
        rw [discover_cons, discovered]
        obtain ⟨hdiscover, hwords⟩ := h mem' hmem' hagree c hc hslots
        exact ⟨(if_pos hknown).trans hdiscover, (if_pos hknown).trans hwords⟩
      · by_cases hlimit : limit ≤ d.blockOf.size
        · refine ⟨⟨.error (.blockLimit entry limit), [], 0⟩, [], honest_error trivial, nofun, ?_⟩
          rintro mem' - - c rfl -
          rw [discover_cons, discovered]
          exact ⟨(if_neg hknown).trans (if_pos hlimit), (if_neg hknown).trans (if_pos hlimit)⟩
        · -- a block is compiled, and the search goes on with what follows it
          obtain ⟨y, words, hresult, hy, h⟩ := discoverBlock_yields start hd
          obtain ⟨result, more, blocks⟩ := y
          cases result with
          | error e =>
            refine ⟨⟨.error e, more, blocks⟩, words, hresult.cast, nofun, ?_⟩
            rintro mem' hmem' hagree c rfl hslots
            obtain ⟨hblock, hwords⟩ := h mem' hmem' hagree c hslots
            rw [discover_cons, discovered, hblock]
            refine ⟨(if_neg hknown).trans ((if_neg hlimit).trans rfl),
              (if_neg hknown).trans ((if_neg hlimit).trans ?_)⟩
            exact (List.append_nil _).trans hwords
          | ok r =>
            obtain ⟨exits, d'⟩ := r
            obtain ⟨y', words', hresult', hy', h'⟩ := ih ((exits.map (·.2)).filter
              (fun target => !d'.blockOf.contains target) ++ pending) (hy exits d' rfl)
            refine ⟨⟨y'.result, more ++ y'.asked, blocks + y'.blocks⟩, words ++ words', hresult',
              ?_, ?_⟩
            · intro d'' hd''
              rw [← List.append_assoc]
              exact hy' d'' hd''
            · rintro mem' hmem' hagree c rfl hslots
              obtain ⟨hblock, hwords⟩ := h mem' hmem' hagree.of_append.1 c hslots
              obtain ⟨hdiscover, hdiscovered⟩ := h' mem' hmem' hagree.of_append.2
                { c with slots := c.slots.ask more, blocksDiscovered := c.blocksDiscovered + blocks }
                rfl (by
                  intro a ha
                  rcases List.mem_append.mp ha with ha | ha
                  · exact hslots.ask more a ha
                  · exact assigned_ask c.slots more a ha)
              rw [discover_cons, discovered, hblock]
              refine ⟨(if_neg hknown).trans ((if_neg hlimit).trans (hdiscover.trans ?_)),
                (if_neg hknown).trans ((if_neg hlimit).trans ?_)⟩
              · simp only [Finding.on, Slots.ask_append, Nat.add_assoc]
              · exact congrArg₂ _ hwords hdiscovered

/-! ### Assembling functions -/

lemma link_map (ρ : Nat → Nat) (blockOf : Std.HashMap UInt64 Nat)
    (graph : Flow.Graph (List Op) Operand) (found : Nat × UInt64 × Exits) :
    Compiler.link blockOf (graph.map (Op.relocateAll ρ) id) found =
      (Compiler.link blockOf graph found).map (·.map (Op.relocateAll ρ) id) := by
  obtain ⟨node, source, exits⟩ := found
  refine except_foldlM_map (fun graph ⟨cond, target⟩ => ?_) exits graph
  cases hblock : blockOf[target]? with
  | none => simp only [hblock, Except.map]
  | some block =>
    have hadd := Flow.Graph.addExit_map (f := Op.relocateAll ρ) (h := (id : Operand → Operand))
      (g := graph) node cond block
    rw [Option.map_id_fun, id_eq] at hadd
    simp only [hblock, Except.map, hadd]

lemma foldlM_link_map (ρ : Nat → Nat) (blockOf : Std.HashMap UInt64 Nat)
    (graph : Flow.Graph (List Op) Operand) (found : List (Nat × UInt64 × Exits)) :
    found.foldlM (Compiler.link blockOf) (graph.map (Op.relocateAll ρ) id) =
      (found.foldlM (Compiler.link blockOf) graph).map (·.map (Op.relocateAll ρ) id) :=
  except_foldlM_map (fun graph x => link_map ρ blockOf graph x) found graph

lemma finished_map (ρ : Nat → Nat) (config : Config) (block : Nat)
    (graph : Flow.Graph (List Op) Operand) :
    finished config block (graph.map (Op.relocateAll ρ) id) =
      (finished config block graph).map (Op.relocateAll ρ) id := by
  unfold finished
  split
  · exact Flow.Graph.coalesce_map (g := graph.setEntry block) fun a b =>
      Ir.relocateAll_append a b
  · rfl

/-- Linking what is found before or after it is assembled comes to the same. -/
lemma assemble_link (config : Config) (entry : UInt64) (d : Discovery) (ρ : Nat → Nat) :
    assemble config entry (d.link ρ) = (assemble config entry d).map (·.relocate ρ) := by
  rw [assemble_eq, assemble_eq]
  simp only [Discovery.link, foldlM_link_map]
  cases d.found.toList.foldlM (Compiler.link d.blockOf) d.graph with
  | error e => rfl
  | ok graph =>
    cases hblock : d.blockOf[entry]? with
    | none => rfl
    | some block =>
      simp only [Except.map, finished_map, Flow.Graph.structurize_map]
      cases (finished config block graph).structurize <;> rfl

lemma honest_link (blockOf : Std.HashMap UInt64 Nat) (graph : Flow.Graph (List Op) Operand)
    (found : Nat × UInt64 × Exits) : Honest (Compiler.link blockOf graph found) := by
  obtain ⟨node, source, exits⟩ := found
  refine honest_foldlM (fun graph ⟨cond, target⟩ => ?_) exits graph
  dsimp only
  cases blockOf[target]? with
  | none => exact honest_error trivial
  | some block => exact honest_ok _

lemma honest_assemble {config : Config} {entry : UInt64} {d : Discovery} :
    Honest (assemble config entry d) := by
  rw [assemble_eq]
  have hfound := honest_foldlM (honest_link d.blockOf) d.found.toList d.graph
  cases h : d.found.toList.foldlM (Compiler.link d.blockOf) d.graph with
  | error e =>
    rw [h] at hfound
    exact hfound.cast
  | ok graph =>
    cases d.blockOf[entry]? with
    | none => exact honest_error trivial
    | some block =>
      dsimp only
      cases (finished config block graph).structurize with
      | ok body => exact honest_ok _
      | error e => exact honest_error trivial

lemma all_link {p : List Op → Prop} {q : Operand → Prop} {blockOf : Std.HashMap UInt64 Nat}
    {graph graph' : Flow.Graph (List Op) Operand} {found : Nat × UInt64 × Exits}
    (hg : graph.All p q) (hfound : ∀ exit ∈ found.2.2, ∀ c, exit.1 = some c → q c)
    (h : Compiler.link blockOf graph found = .ok graph') : graph'.All p q := by
  obtain ⟨node, source, exits⟩ := found
  refine except_foldlM_keeps (fun exit hexit graph graph' hg h => ?_) hg h
  dsimp only at h
  cases hblock : blockOf[exit.2]? with
  | none =>
    rw [hblock] at h
    cases h
  | some block =>
    rw [hblock] at h
    cases h
    exact Flow.Graph.all_addExit hg (hfound exit hexit) node block

/-- What holds of every body that is found, and of joined ones, holds of every body of the function
that is assembled. -/
lemma all_assemble {p : List Op → Prop} {q : Operand → Prop} {config : Config} {entry : UInt64}
    {d : Discovery} {f : Ir.Function} (hjoin : ∀ a b, p a → p b → p (a ++ b))
    (hd : d.graph.All p q)
    (hfound : ∀ found ∈ d.found, ∀ exit ∈ found.2.2, ∀ c, exit.1 = some c → q c)
    (h : assemble config entry d = .ok f) : f.entry = entry ∧ f.body.All p q := by
  obtain ⟨graph, block, body, hgraph, -, hbody, rfl⟩ := assemble_eq_ok h
  have hall : graph.All p q := except_foldlM_keeps (fun x hx _ _ hg hlink =>
    all_link hg (hfound x (Array.mem_toList_iff.mp hx)) hlink) hd hgraph
  refine ⟨rfl, Flow.Graph.structurize_all ?_ hbody⟩
  unfold finished
  split
  · exact Flow.Graph.all_coalesce hjoin hall
  · exact hall

/-! ### Building functions -/

/-- The addresses of the words that are fetched for the function at an address. -/
def fetched (entry : UInt64) (mem : Memory) (c : Compiler) : List UInt64 :=
  discovered mem entry (2 * c.config.maxBlocks + 2) [entry] .start c

/-- What building a function yields: the function before it is linked, hanging on the limits and
on the words that are fetched for it. -/
structure Yields (entry : UInt64) (mem : Memory) (config : Config) (y : Finding Ir.Function)
    (words : List UInt64) : Prop where
  honest : Honest y.result
  unlinked : ∀ f, y.result = .ok f →
    f.entry = entry ∧ f.body.All (Unlinked mem y.asked) fun _ => True
  build : ∀ mem', Comparable mem mem' → Agree words mem mem' → ∀ c, c.config = config →
    build entry mem' c = y.on Ir.Function.relocate c
  fetched : ∀ mem', Comparable mem mem' → Agree words mem mem' → ∀ c, c.config = config →
    fetched entry mem' c = words

theorem exists_yields (entry : UInt64) (mem : Memory) (config : Config) :
    ∃ y words, Yields entry mem config y words := by
  have hstart : Discovery.start.Unlinked mem [] := Flow.Graph.all_empty
  obtain ⟨y, words, hresult, hy, h⟩ := discover_yields entry config.maxBlocks
    (2 * config.maxBlocks + 2) [entry] hstart
  refine ⟨⟨y.result.bind (assemble config entry), y.asked, y.blocks⟩, words, ?_, ?_, ?_, ?_⟩
  · intro e he
    cases hd : y.result with
    | error e' =>
      rw [hd] at he
      cases he
      exact hresult e hd
    | ok d =>
      rw [hd] at he
      exact honest_assemble e he
  · intro f hf
    cases hd : y.result with
    | error e =>
      rw [hd] at hf
      cases hf
    | ok d =>
      rw [hd] at hf
      exact all_assemble (fun _ _ => Unlinked.append) (hy d hd) (fun _ _ _ _ _ _ => trivial) hf
  · rintro mem' hmem' hagree c rfl
    have hdiscover := (h mem' hmem' hagree c rfl fun a ha => absurd ha List.not_mem_nil).1
    rw [Discovery.link_start] at hdiscover
    rw [build_eq, hdiscover]
    unfold Finding.on
    cases y.result with
    | error e => rfl
    | ok d =>
      simp only [Except.map, Except.bind, endIn, assemble_link]
      cases assemble c.config entry d <;> rfl
  · rintro mem' hmem' hagree c rfl
    have hwords := (h mem' hmem' hagree c rfl fun a ha => absurd ha List.not_mem_nil).2
    rwa [Discovery.link_start] at hwords

end Dynarec.Compiler
