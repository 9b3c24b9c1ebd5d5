import Dynarec.Proofs.Compiler.Linked
import Dynarec.Proofs.Wasm.Errors

/-!
# What the slots hold

The code that is compiled for an address is what building its function gives, once and for all:
building it again from the same memory gives it again, slot for slot, as long as the addresses that
it calls keep their slots. Only flushing takes slots away, and flushing takes all the code with them.
-/

namespace Dynarec.Compiler

open Ir (Op Operand)
open Linking (Code Slot Slots)

variable {mem : Memory} {entry : UInt64} {c c' : Compiler}

/-! ### Linked code -/

/-- Operations whose calls are those of instructions in memory: each follows the write of its return
address and goes through the slot of the address that is called by the instruction before it. -/
inductive Linked (mem : Memory) (slots : Slots Code) : List Op → Prop where
  | nil : Linked mem slots []
  | plain {op : Op} {rest : List Op} : op.any Op.isCall = false → Linked mem slots rest →
    Linked mem slots (op :: rest)
  | call {dst : Ir.Place} {link offset : UInt64} {slot : Nat} {rest : List Op} :
    instrAt mem (link - 4) = some (.branch true offset) →
    slots.ofAddr[link - 4 + offset]? = some slot → Linked mem slots rest →
    Linked mem slots (.mov .w64 (.x 30) (.imm link) :: .call dst slot :: rest)

lemma slotOf_eq {slots : Slots Code} {a : UInt64} {slot : Nat} (h : slots.ofAddr[a]? = some slot) :
    slots.slotOf a.toNat = slot := by
  rw [Slots.slotOf, UInt64.ofNat_toNat, h, Option.getD_some]

lemma Unlinked.linked {asked : List UInt64} {ops : List Op} (h : Unlinked mem asked ops)
    {slots : Slots Code} (hslots : Assigned slots asked) :
    Linked mem slots (Op.relocateAll slots.slotOf ops) := by
  induction h with
  | nil =>
    rw [Ir.relocateAll_nil]
    exact .nil
  | plain hop _ ih =>
    rw [Ir.relocateAll_cons, Ir.relocate_of_any hop]
    exact .plain hop ih
  | call hcalls hasked _ ih =>
    obtain ⟨offset, hinstr, rfl⟩ := hcalls
    obtain ⟨slot, hslot⟩ := hslots _ hasked
    simp only [Ir.relocateAll_cons, Op.relocate, slotOf_eq hslot]
    exact .call hinstr hslot ih

/-- Linking a function looks up only the addresses that are called. -/
lemma relocate_congr {f : Ir.Function} {asked : List UInt64}
    (hf : f.body.All (Unlinked mem asked) fun _ => True) {ρ ρ' : Nat → Nat}
    (hρ : ∀ a ∈ asked, ρ a.toNat = ρ' a.toNat) : f.relocate ρ = f.relocate ρ' := by
  have hbody : f.body.map (Op.relocateAll ρ) id = f.body.map (Op.relocateAll ρ') id :=
    Shape.map_congr (hf.imp (fun _ h => h.relocate_congr hρ) fun _ _ => rfl)
  rw [Ir.Function.relocate, Ir.Function.relocate, hbody]

lemma slotOf_of_extends {slots slots' : Slots Code} (h : slots.Extends slots') {asked : List UInt64}
    (hslots : Assigned slots asked) :
    ∀ a ∈ asked, slots'.slotOf a.toNat = slots.slotOf a.toNat := by
  intro a ha
  obtain ⟨slot, hslot⟩ := hslots a ha
  rw [slotOf_eq hslot, slotOf_eq (h a slot hslot)]

/-! ### Building again -/

/-- What building gives is what is found, linked. -/
lemma Yields.of_build {config : Config} {y : Finding Ir.Function} {words : List UInt64}
    (h : Yields entry mem config y words) (hc : c.config = config) {f : Ir.Function}
    (hbuild : Compiler.build entry mem c = .ok f c') :
    ∃ f₀, y.result = .ok f₀ ∧ c'.slots = c.slots.ask y.asked ∧
      f = f₀.relocate c'.slots.slotOf := by
  rw [h.build mem (.inl rfl) (fun _ _ => rfl) c hc] at hbuild
  unfold Finding.on at hbuild
  cases hy : y.result with
  | error e =>
    rw [hy] at hbuild
    cases hbuild
  | ok f₀ =>
    rw [hy] at hbuild
    cases hbuild
    exact ⟨f₀, rfl, rfl, rfl⟩

/-- Building asks for slots and does nothing else to them. -/
lemma build_slots (entry : UInt64) (mem : Memory) (c : Compiler) :
    ∃ asked, (EStateM.after (build entry mem c)).slots = c.slots.ask asked := by
  obtain ⟨y, words, h⟩ := exists_yields entry mem c.config
  refine ⟨y.asked, ?_⟩
  rw [h.build mem (.inl rfl) (fun _ _ => rfl) c rfl]
  unfold Finding.on
  cases y.result <;> rfl

lemma honest_build {e : Error} (h : build entry mem c = .error e c') : OfCompiling e := by
  obtain ⟨y, words, hy⟩ := exists_yields entry mem c.config
  rw [hy.build mem (.inl rfl) (fun _ _ => rfl) c rfl] at h
  unfold Finding.on at h
  cases hresult : y.result with
  | error e' =>
    rw [hresult] at h
    cases h
    exact hy.honest e hresult
  | ok f =>
    rw [hresult] at h
    cases h

/-- The function of an address is built the same by every compiler in which the addresses that it
calls have the same slots, and asks for no further ones. -/
lemma build_again {f : Ir.Function} (h : build entry mem c = .ok f c') {c'' : Compiler}
    (hconfig : c''.config = c.config) (hslots : c'.slots.Extends c''.slots) :
    ∃ c₁, build entry mem c'' = .ok f c₁ ∧ c₁.slots = c''.slots := by
  obtain ⟨y, words, hy⟩ := exists_yields entry mem c.config
  obtain ⟨f₀, hf₀, hasked, hf⟩ := hy.of_build rfl h
  have hassigned : Assigned c'.slots y.asked := by
    rw [hasked]
    exact assigned_ask c.slots y.asked
  have hsame : c''.slots.ask y.asked = c''.slots := Slots.ask_of_forall fun a ha => by
    obtain ⟨slot, hslot⟩ := hassigned a ha
    exact ⟨slot, hslots a slot hslot⟩
  have hrelocate : f₀.relocate c''.slots.slotOf = f := by
    rw [hf]
    exact relocate_congr (hy.unlinked f₀ hf₀).2 (slotOf_of_extends hslots hassigned)
  rw [hy.build mem (.inl rfl) (fun _ _ => rfl) c'' hconfig]
  simp only [Finding.on, hf₀, Except.map, endIn, hsame, hrelocate]
  exact ⟨_, rfl, rfl⟩

/-- A function that is built has the address that it is built from, and is linked. -/
lemma linked_of_build {f : Ir.Function} (h : build entry mem c = .ok f c') :
    f.entry = entry ∧ f.body.All (Linked mem c'.slots) fun _ => True := by
  obtain ⟨y, words, hy⟩ := exists_yields entry mem c.config
  obtain ⟨f₀, hf₀, hasked, rfl⟩ := hy.of_build rfl h
  obtain ⟨hentry, hbody⟩ := hy.unlinked f₀ hf₀
  refine ⟨hentry, Shape.all_map.mpr (hbody.imp (fun _ h => h.linked ?_) fun _ _ => trivial)⟩
  rw [hasked]
  exact assigned_ask c.slots y.asked

/-- The calls of code before it is linked are of addresses that are asked for. -/
lemma Unlinked.asked_of_within {asked : List UInt64} {ops : List Op} (h : Unlinked mem asked ops)
    {dst : Ir.Place} {n : Nat} (hcall : (Op.call dst n).Within ops) : ∃ a ∈ asked, n = a.toNat := by
  induction h with
  | nil => cases hcall
  | @plain op rest hop _ ih =>
    have hnone : ¬(Op.call dst n).Within [op] := fun hwithin => by
      rw [Op.any_iff.mpr ⟨_, hwithin, rfl⟩] at hop
      cases hop
    cases hcall with
    | head => exact absurd .head hnone
    | tail hcall => exact ih hcall
    | ifTrue hcall => exact absurd (.ifTrue hcall) hnone
    | ifFalse hcall => exact absurd (.ifFalse hcall) hnone
  | call _ hasked _ ih =>
    cases hcall with
    | tail hcall =>
      cases hcall with
      | head => exact ⟨_, hasked, rfl⟩
      | tail hcall => exact ih hcall

/-- A function that asks for no further slots is what is found, linked; its calls are of addresses
that have slots. -/
lemma Yields.of_build_same {config : Config} {y : Finding Ir.Function} {words : List UInt64}
    (h : Yields entry mem config y words) (hc : c.config = config) {f : Ir.Function}
    (hbuild : Compiler.build entry mem c = .ok f c') (hsame : c'.slots = c.slots) :
    ∃ f₀, y.result = .ok f₀ ∧ f = f₀.relocate c.slots.slotOf ∧ Assigned c.slots y.asked ∧
      f₀.body.All (fun ops => ∀ dst n, (Op.call dst n).Within ops → ∃ a ∈ y.asked, n = a.toNat)
        fun _ => True := by
  obtain ⟨f₀, hf₀, hasked, hf⟩ := h.of_build hc hbuild
  have hassigned : Assigned c.slots y.asked := by
    rw [← hsame, hasked]
    exact assigned_ask c.slots y.asked
  exact ⟨f₀, hf₀, hsame ▸ hf, hassigned,
    (h.unlinked f₀ hf₀).2.imp (fun _ hops _ _ => hops.asked_of_within) fun _ h => h⟩

/-- What is fetched and what is built hang on the words that are fetched. -/
lemma build_congr {mem' : Memory} (hmem : Comparable mem mem')
    (h : Agree (fetched entry mem c) mem mem') :
    build entry mem' c = build entry mem c ∧ fetched entry mem' c = fetched entry mem c := by
  obtain ⟨y, words, hy⟩ := exists_yields entry mem c.config
  have hwords := hy.fetched mem (.inl rfl) (fun _ _ => rfl) c rfl
  rw [hwords] at h ⊢
  rw [hy.build mem (.inl rfl) (fun _ _ => rfl) c rfl, hy.build mem' hmem h c rfl,
    hy.fetched mem' hmem h c rfl]
  exact ⟨rfl, rfl⟩

/-- What is fetched is the same in every compiler with the same limits. -/
lemma fetched_config (entry : UInt64) (mem : Memory) (h : c'.config = c.config) :
    fetched entry mem c' = fetched entry mem c := by
  obtain ⟨y, words, hy⟩ := exists_yields entry mem c.config
  rw [hy.fetched mem (.inl rfl) (fun _ _ => rfl) c rfl,
    hy.fetched mem (.inl rfl) (fun _ _ => rfl) c' h]

/-! ### Slots and the code in them -/

/-- A compiler whose slots are consistent and hold only code that building its function from some
memory gives, without asking for further slots. `Origin` says from which memories. -/
structure Sound (Origin : UInt64 → Memory → Prop) (c : Compiler) : Prop where
  slots : c.slots.Consistent
  built : ∀ slot a code, c.slot? slot = some (.compiled a code) →
    ∃ mem c', Origin a mem ∧ build a mem c = .ok code.function c' ∧ c'.slots = c.slots

variable {Origin : UInt64 → Memory → Prop}

lemma sound_start (backend : Backend) (config : Config) : Sound Origin (.start backend config) where
  slots := Linking.Slots.consistent_ofSize _
  built slot a code h := by
    rw [Compiler.start, slot?, Linking.Slots.ofSize, Linking.FunctionTable.ofSize,
      Linking.FunctionTable.get?, Array.getElem?_replicate] at h
    split at h <;> cases h

/-- Code that is in the slots stays sound when addresses get slots. -/
lemma Sound.of_extends (h : c.Sound Origin) (hconfig : c'.config = c.config)
    (hslots : c'.slots.Consistent) (hextends : c.slots.Extends c'.slots)
    (hcode : ∀ slot a code, c'.slot? slot = some (.compiled a code) →
      c.slot? slot = some (.compiled a code)) : c'.Sound Origin where
  slots := hslots
  built slot a code hslot := by
    obtain ⟨mem, c₁, horigin, hbuild, hsame⟩ := h.built slot a code (hcode slot a code hslot)
    obtain ⟨c₂, hbuild', hsame'⟩ := build_again hbuild hconfig (by rwa [hsame])
    exact ⟨mem, c₂, horigin, hbuild', hsame'⟩

lemma Sound.of_ask (h : c.Sound Origin) (hconfig : c'.config = c.config) (asked : List UInt64)
    (hslots : c'.slots = c.slots.ask asked) : c'.Sound Origin := by
  apply h.of_extends hconfig
  · rw [hslots]
    exact h.slots.ask asked
  · rw [hslots]
    exact Slots.extends_ask c.slots asked
  · intro slot a code hslot
    rw [slot?, hslots] at hslot
    exact Slots.compiled_of_ask hslot

lemma Sound.build (h : c.Sound Origin) (entry : UInt64) (mem : Memory) :
    (EStateM.after (build entry mem c)).Sound Origin := by
  obtain ⟨asked, hslots⟩ := build_slots entry mem c
  exact h.of_ask (build_sameSetup entry mem c).2 asked hslots

lemma Sound.withSlot (h : c.Sound Origin) (a : UInt64) : (c.withSlot a).Sound Origin :=
  h.of_ask rfl [a] rfl

lemma Sound.invalidate (h : c.Sound Origin) (a : UInt64) : (c.invalidate a).2.Sound Origin := by
  cases ha : c.slots.ofAddr[a]? with
  | none =>
    have hsame : (c.invalidate a).2 = c := by
      unfold Compiler.invalidate Linking.Slots.invalidate
      rw [ha]
    rwa [hsame]
  | some slot =>
    have hslots : (c.invalidate a).2.slots =
        { c.slots with table := c.slots.table.set slot (.trampoline a) } := by
      unfold Compiler.invalidate Linking.Slots.invalidate
      rw [ha]
    refine h.of_extends rfl (h.slots.invalidate a) ?_ ?_
    · rw [hslots]
      exact Slots.Extends.refl _
    · intro k b code hk
      rw [slot?, hslots, Linking.FunctionTable.get?_set] at hk
      split at hk
      · cases hget : c.slots.table.get? k <;> rw [hget] at hk <;> cases hk
      · exact hk

lemma Sound.flush (h : c.Sound Origin) : c.flush.Sound Origin where
  slots := h.slots.flush
  built slot a code hslot := by
    rw [Compiler.flush, slot?, Linking.Slots.flush, Linking.FunctionTable.reset,
      Linking.FunctionTable.get?, Array.getElem?_replicate] at hslot
    split at hslot <;> cases hslot

/-- Code that is made ready runs the function that it is made from. -/
lemma prepare_ok {backend : Backend} {f : Ir.Function} {code : Code}
    (h : backend.prepare f = .ok code) : code.function = f := by
  cases backend with
  | interpreter =>
    cases h
    rfl
  | webAssembly options =>
    rw [Backend.prepare] at h
    cases hemit : Wasm.emitFunction f options with
    | error e =>
      rw [hemit] at h
      cases h
    | ok binary =>
      rw [hemit] at h
      cases h
      rfl

lemma slot?_install (c : Compiler) (slot : Nat) (a : UInt64) (code : Code) (k : Nat) :
    (c.install slot a code).slot? k =
      if slot = k then (c.slot? k).map fun _ => .compiled a code else c.slot? k :=
  Linking.FunctionTable.get?_set slot k _

/-- What is built for an address may be put into the slot of the address. -/
lemma Sound.install (h : c.Sound Origin) {f : Ir.Function} {code : Code}
    (hbuild : Compiler.build entry mem c = .ok f c') (hcode : code.function = f)
    (horigin : Origin entry mem) {slot : Nat} (hslot : c'.slots.ofAddr[entry]? = some slot) :
    (c'.install slot entry code).Sound Origin := by
  have hsound : c'.Sound Origin := by
    have := h.build entry mem
    rwa [hbuild] at this
  have hextends : c'.slots.Extends (c'.install slot entry code).slots := Slots.Extends.refl _
  refine ⟨hsound.slots.set hslot (.inr ⟨code, rfl⟩), fun k a code' hk => ?_⟩
  rw [slot?_install] at hk
  split at hk
  · cases hget : c'.slot? k with
    | none =>
      rw [hget] at hk
      cases hk
    | some e =>
      rw [hget] at hk
      cases hk
      have hconfig : (c'.install slot entry code).config = c.config :=
        ((build_sameSetup entry mem).of_ok hbuild).2
      obtain ⟨c₁, hagain, hsame⟩ := build_again hbuild hconfig hextends
      exact ⟨mem, c₁, horigin, hcode ▸ hagain, hsame⟩
  · obtain ⟨mem', c₁, horigin', hbuild', hsame⟩ := hsound.built k a code' hk
    have hconfig : (c'.install slot entry code).config = c'.config := rfl
    obtain ⟨c₂, hagain, hsame'⟩ := build_again hbuild' hconfig (by rwa [hsame])
    exact ⟨mem', c₂, horigin', hagain, hsame'⟩

lemma Sound.imp (h : c.Sound Origin) {Origin' : UInt64 → Memory → Prop}
    (himp : ∀ slot a code, c.slot? slot = some (.compiled a code) →
      ∀ mem, Origin a mem → Origin' a mem) : c.Sound Origin' where
  slots := h.slots
  built slot a code hslot := by
    obtain ⟨mem, c', horigin, hbuild⟩ := h.built slot a code hslot
    exact ⟨mem, c', himp slot a code hslot mem horigin, hbuild⟩

/-! ### Compiling -/

/-- The code that is compiled for an address. -/
def compiled? (c : Compiler) (a : UInt64) : Option Code :=
  match (c.lookup a).bind c.slot? with
  | some (.compiled _ code) => some code
  | _ => none

lemma Sound.compiled?_iff (h : c.Sound Origin) {a : UInt64} {code : Code} :
    c.compiled? a = some code ↔ ∃ slot, c.slot? slot = some (.compiled a code) := by
  unfold compiled?
  constructor
  · intro hcode
    split at hcode
    · next b code' hbind =>
      cases hcode
      obtain ⟨slot, hlookup, hslot⟩ := Option.bind_eq_some_iff.mp hbind
      obtain rfl := h.slots.entry_of_compiled hlookup hslot
      exact ⟨slot, hslot⟩
    · cases hcode
  · rintro ⟨slot, hslot⟩
    obtain ⟨b, hb⟩ := h.slots.owned slot _ hslot (by simp)
    obtain rfl := h.slots.entry_of_compiled hb hslot
    have hbind : (c.lookup a).bind c.slot? = some (.compiled a code) := by
      rw [lookup, hb]
      exact hslot
    rw [hbind]

/-- Code that has been compiled is found. -/
lemma compile_hit (mem : Memory) {code : Code} (h : c.compiled? entry = some code) :
    compile entry mem c = .ok code { c with cacheHits := c.cacheHits + 1 } := by
  unfold compiled? at h
  split at h
  · next a code' hslot =>
    cases h
    obtain ⟨slot, hlookup, hslot⟩ := Option.bind_eq_some_iff.mp hslot
    have hfunctionSlot := Linking.Slots.functionSlot_some hlookup
    have hsame : c.withSlot entry = c := by rw [withSlot, hfunctionSlot]
    have hfound : (c.withSlot entry).slot? (c.slots.functionSlot entry).1 =
        some (.compiled a code) := by
      rw [hsame, hfunctionSlot]
      exact hslot
    have hout := outcome_compile entry mem c
    generalize compile entry mem c = r at hout
    cases hout with
    | hit hslot' =>
      rw [hfound] at hslot'
      cases hslot'
      rw [hsame]
    | built hnot _ _ | unbuilt hnot _ | unprepared hnot _ _ => exact absurd hfound (hnot a code)
  · cases h

/-- Code that has not been compiled is built and made ready. -/
lemma compile_miss (mem : Memory) (h : c.compiled? entry = none) :
    compile entry mem c = match build entry mem (c.withSlot entry) with
      | .error e c' => .error e c'
      | .ok f c' =>
        match c'.backend.prepare f with
        | .ok code => .ok code (install (c.slots.functionSlot entry).1 entry code c')
        | .error e => .error e c' := by
  have hnot : ∀ a code,
      (c.withSlot entry).slot? (c.slots.functionSlot entry).1 ≠ some (.compiled a code) := by
    intro a code hslot
    have hold := Linking.Slots.compiled_of_functionSlot hslot
    cases hlookup : c.slots.ofAddr[entry]? with
    | none =>
      rw [slot?, withSlot, Linking.Slots.functionSlot_none hlookup,
        Linking.FunctionTable.get?_set, if_pos rfl] at hslot
      cases hget : c.slots.table.alloc.2.get? c.slots.table.alloc.1 <;> rw [hget] at hslot <;>
        cases hslot
    | some slot =>
      rw [Linking.Slots.functionSlot_some hlookup] at hold
      have hbind : (c.lookup entry).bind c.slot? = some (.compiled a code) := by
        rw [lookup, hlookup]
        exact hold
      rw [compiled?, hbind] at h
      cases h
  have hout := outcome_compile entry mem c
  generalize compile entry mem c = r at hout
  cases hout with
  | hit hslot => exact absurd hslot (hnot _ _)
  | built _ hbuild hprepare => rw [hbuild]; dsimp only; rw [hprepare]
  | unbuilt _ hbuild => rw [hbuild]
  | unprepared _ hbuild hprepare => rw [hbuild]; dsimp only; rw [hprepare]

/-- The address has its slot also when it cannot be compiled. -/
lemma exists_lookup_compile (entry : UInt64) (mem : Memory) (c : Compiler) :
    ∃ slot, (EStateM.after (compile entry mem c)).lookup entry = some slot := by
  have hslot : (c.withSlot entry).lookup entry = some (c.slots.functionSlot entry).1 :=
    Linking.Slots.ofAddr_functionSlot c.slots entry
  have hbuild : (EStateM.after (build entry mem (c.withSlot entry))).lookup entry =
      some (c.slots.functionSlot entry).1 := by
    obtain ⟨asked, hslots⟩ := build_slots entry mem (c.withSlot entry)
    rw [lookup, hslots]
    exact Slots.ofAddr_ask_of_some hslot asked
  refine ⟨(c.slots.functionSlot entry).1, ?_⟩
  have h := outcome_compile entry mem c
  generalize compile entry mem c = r at h
  cases h with
  | hit _ => exact hslot
  | built _ hb _ => rw [hb] at hbuild; exact hbuild
  | unbuilt _ hb => rw [hb] at hbuild; exact hbuild
  | unprepared _ hb _ => rw [hb] at hbuild; exact hbuild

/-- No error of compiling is a call through a slot. -/
lemma compile_error {e : Error} (h : compile entry mem c = .error e c') (slot : Nat) :
    e ≠ .backend (.vacantSlot slot) := by
  rintro rfl
  have hout := outcome_compile entry mem c
  rw [h] at hout
  cases hout with
  | unbuilt _ hbuild => exact honest_build hbuild
  | unprepared _ _ hprepare =>
    rename_i f _ _
    cases hbackend : c'.backend with
    | interpreter =>
      rw [hbackend] at hprepare
      cases hprepare
    | webAssembly options =>
      rw [hbackend, Backend.prepare] at hprepare
      have hcandid := Wasm.emitFunction_candid f options
      cases hemit : Wasm.emitFunction f options with
      | ok binary =>
        rw [hemit] at hprepare
        cases hprepare
      | error e =>
        rw [hemit] at hprepare hcandid
        cases hprepare
        exact hcandid _ rfl

/-- What a compiler becomes while code is compiled: addresses keep their slots, and code that has
been compiled stays. -/
structure Grows (c c' : Compiler) : Prop where
  setup : SameSetup c c'
  slots : c.slots.Extends c'.slots
  code : ∀ slot a code, c.slot? slot = some (.compiled a code) →
    c'.slot? slot = some (.compiled a code)

lemma Grows.refl (c : Compiler) : Grows c c :=
  ⟨Std.Refl.refl c, Slots.Extends.refl _, fun _ _ _ h => h⟩

lemma Grows.trans {c c' c'' : Compiler} (h : Grows c c') (h' : Grows c' c'') : Grows c c'' :=
  ⟨IsTrans.trans _ _ _ h.setup h'.setup, h.slots.trans h'.slots, fun slot a code hslot =>
    h'.code slot a code (h.code slot a code hslot)⟩

lemma Sound.grows_of_ask (h : c.Sound Origin) (hsetup : SameSetup c c') (asked : List UInt64)
    (hslots : c'.slots = c.slots.ask asked) : Grows c c' := by
  refine ⟨hsetup, ?_, fun slot a code hslot => ?_⟩
  · rw [hslots]
    exact Slots.extends_ask c.slots asked
  · rw [slot?, hslots]
    exact h.slots.get?_ask (by simp) hslot asked

lemma Sound.grows_build (h : c.Sound Origin) (entry : UInt64) (mem : Memory) :
    Grows c (EStateM.after (Compiler.build entry mem c)) := by
  obtain ⟨asked, hslots⟩ := build_slots entry mem c
  exact h.grows_of_ask (build_sameSetup entry mem c) asked hslots

lemma compiled_of_build (entry : UInt64) (mem : Memory) (c : Compiler) {slot : Nat} {a : UInt64}
    {code : Code}
    (h : (EStateM.after (build entry mem c)).slot? slot = some (.compiled a code)) :
    c.slot? slot = some (.compiled a code) := by
  obtain ⟨asked, hslots⟩ := build_slots entry mem c
  rw [slot?, hslots] at h
  exact Slots.compiled_of_ask h

/-- Compiling puts no code anywhere but into the slot of the address. -/
lemma compiled_of_compile {slot : Nat} {a : UInt64} {code : Code}
    (h : (EStateM.after (compile entry mem c)).slot? slot = some (.compiled a code)) :
    a = entry ∨ c.slot? slot = some (.compiled a code) := by
  have hout := outcome_compile entry mem c
  generalize compile entry mem c = r at hout h
  cases hout with
  | hit _ => exact .inr (Linking.Slots.compiled_of_functionSlot h)
  | unbuilt _ hbuild | unprepared _ hbuild _ =>
    refine .inr (Linking.Slots.compiled_of_functionSlot (compiled_of_build entry mem
      (c.withSlot entry) ?_))
    rw [hbuild]
    exact h
  | @built f code' c' _ hbuild _ =>
    rw [EStateM.after_ok, slot?_install] at h
    split at h
    · cases hget : c'.slot? slot <;> rw [hget] at h <;> cases h
      exact .inl rfl
    · refine .inr (Linking.Slots.compiled_of_functionSlot (compiled_of_build entry mem
        (c.withSlot entry) ?_))
      rw [hbuild]
      exact h

/-- Code that is built from memories which have the words that it is built from in common with one
memory is built from that one. -/
lemma Sound.rebase (h : c.Sound Origin) {mem₀ : Memory}
    (hmem : ∀ slot a code, c.slot? slot = some (.compiled a code) → ∀ mem, Origin a mem →
      Comparable mem mem₀ ∧ Agree (fetched a mem c) mem mem₀) :
    c.Sound fun _ mem => mem = mem₀ where
  slots := h.slots
  built slot a code hslot := by
    obtain ⟨mem, c', horigin, hbuild, hsame⟩ := h.built slot a code hslot
    obtain ⟨hcomparable, hagree⟩ := hmem slot a code hslot mem horigin
    exact ⟨mem₀, c', rfl, (build_congr hcomparable hagree).1.trans hbuild, hsame⟩

/-- Compiling keeps a compiler sound and takes nothing away; what it gives is the code in the slot of
the address. -/
theorem Sound.compile (h : c.Sound Origin) (entry : UInt64) (mem : Memory)
    (horigin : c.compiled? entry = none → Origin entry mem) :
    (EStateM.after (Compiler.compile entry mem c)).Sound Origin ∧
      Grows c (EStateM.after (Compiler.compile entry mem c)) ∧
      ∀ code c', Compiler.compile entry mem c = .ok code c' →
        c'.compiled? entry = some code := by
  cases hcode : c.compiled? entry with
  | some code =>
    rw [compile_hit mem hcode]
    refine ⟨h.of_ask rfl [] rfl, h.grows_of_ask ⟨rfl, rfl⟩ [] rfl, ?_⟩
    rintro code' c' ⟨⟩
    exact hcode
  | none =>
    have hslotSound := h.withSlot entry
    have hslotGrows : Grows c (c.withSlot entry) :=
      h.grows_of_ask ⟨rfl, rfl⟩ [entry] rfl
    have hbuildSound := hslotSound.build entry mem
    have hbuildGrows := hslotGrows.trans (hslotSound.grows_build entry mem)
    rw [compile_miss mem hcode]
    cases hbuild : Compiler.build entry mem (c.withSlot entry) with
    | error e c' =>
      rw [hbuild] at hbuildSound hbuildGrows
      exact ⟨hbuildSound, hbuildGrows, fun _ _ h => by cases h⟩
    | ok f c' =>
      rw [hbuild] at hbuildSound hbuildGrows
      rw [EStateM.after_ok] at hbuildSound hbuildGrows
      dsimp only
      cases hprepare : c'.backend.prepare f with
      | error e => exact ⟨hbuildSound, hbuildGrows, fun _ _ h => by cases h⟩
      | ok code =>
        -- the slot of the address stood for it, so no code is lost
        have hslot : c'.slots.ofAddr[entry]? = some (c.slots.functionSlot entry).1 := by
          have hextends := (hslotSound.grows_build entry mem).slots
          rw [hbuild] at hextends
          exact hextends entry _ (Linking.Slots.ofAddr_functionSlot c.slots entry)
        have hsound := hslotSound.install hbuild (prepare_ok hprepare) (horigin hcode) hslot
        rw [EStateM.after_ok]
        refine ⟨hsound, ⟨hbuildGrows.setup, hbuildGrows.slots, fun k a code' hk => ?_⟩, ?_⟩
        · have hk' := hbuildGrows.code k a code' hk
          rw [slot?_install, if_neg]
          · exact hk'
          · rintro rfl
            obtain rfl := hbuildSound.slots.entry_of_compiled hslot hk'
            rw [h.compiled?_iff.mpr ⟨_, hk⟩] at hcode
            cases hcode
        · rintro code' c'' ⟨⟩
          obtain ⟨e, he⟩ := hbuildSound.slots.exists_get? hslot
          refine hsound.compiled?_iff.mpr ⟨(c.slots.functionSlot entry).1, ?_⟩
          rw [slot?_install, if_pos rfl, slot?, he, Option.map_some]

end Dynarec.Compiler
