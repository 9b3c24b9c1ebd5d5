import Dynarec.Proofs.Compiler.Conditions
import Dynarec.Proofs.Compiler.Allocated
import Dynarec.Proofs.Compiler.Regular
import Dynarec.Proofs.Compiler.SysRegs
import Dynarec.Proofs.Flat.Serving

/-!
# Instructions on the flat machine

An instruction that is compiled by itself and runs from zero locals takes the flat machine a step on. An instruction
that is no branch does so because the flat machine runs the same operations, and a branch because what it is compiled
to computes the condition, the target or the status. A call goes on until it has come back, and returns if it has come
back to elsewhere than behind it.
-/

namespace Dynarec.Compiler

open Interp (Frame Services observeOps runOps PlainStep)
open Ir (Op Ty)
open Linking (Code Slots)

/-- The block that an instruction is compiled into by itself. -/
def Block.sole (pc : UInt64) (word : UInt32) (slots : Slots Code) : Block := ⟨pc, word, #[], none, .empty, slots⟩

lemma settled_sole (pc : UInt64) (word : UInt32) (slots : Slots Code) : (Block.sole pc word slots).Settled :=
  ⟨Ir.Scratch.valid_empty, fun _ => Ir.Scratch.not_holds_empty, nofun⟩

/-- A frame whose scratch locals are zero. -/
def fresh {H : Type} (m : Machine H) (types : Array Ty) : Frame H := ⟨m, .replicate types.size 0⟩

variable {H : Type} {mem : Memory} {words : List UInt64} {slots slots₀ : Slots Code} {good : H → Prop}
  {I : Machine H → Prop} {noting : Memory → H → H} {s : Services H} {f g : Frame H} {m : Machine H} {pc : UInt64}
  {word : UInt32} {i : Instr} {b : Block} {r : Option UInt64} {exits : Exits} {T : Array Ty}

lemma Lands.of_steps {a : UInt64} (hI : I g.machine) (hsize : g.locals.size = f.locals.size)
    (ha : r.or (exits.target g) = some a) (h : (f.machine.flat pc).Steps (g.machine.flat a)) :
    Lands I pc exits f r g where
  inv := hI
  size _ := hsize
  reaches a' ha' := by
    obtain rfl : a = a' := Option.some.inj (ha.symm.trans ha')
    exact .single h

/-- An instruction in memory is compiled by itself and runs from zero locals. -/
structure RunsSole (good : H → Prop) (I : Machine H → Prop) (noting : Memory → H → H) (s : Services H)
    (slots₀ : Slots Code) (pc : UInt64) (word : UInt32) (i : Instr) (m : Machine H) (b : Block) (r : Option UInt64)
    (g : Frame H) : Prop where
  instr : instrOf word = some i
  lowered : lower i (.sole pc word slots₀) = .ok () b
  word : wordAt m.mem pc = some word
  inv : I m
  run : observeOps noting s b.scratch.types b.ops.toList (fresh m b.scratch.types) = .ok r g
  good : good g.machine.host

lemma plainSteps_keep (hs : Flat.Serves mem words slots good I noting s)
    (h : Relation.ReflTransGen (PlainStep noting T) f g) (hgood : good g.machine.host) :
    good f.machine.host ∧ (I f.machine → I g.machine ∧ g.locals.size = f.locals.size) := by
  induction h using Relation.ReflTransGen.head_induction_on with
  | refl => exact ⟨hgood, fun hI => ⟨hI, rfl⟩⟩
  | @head f f₁ hstep _ ih =>
    obtain ⟨hgood₁, hkeep⟩ := ih
    cases hstep with
    | write dst v =>
      rw [Interp.host_write] at hgood₁
      refine ⟨hgood₁, fun hI => ?_⟩
      have hI₁ : I (f.write T dst v).machine := by
        cases dst with
        | scratch l => exact hI
        | _ => exact hs.write _ hI
      have hsize : (f.write T dst v).locals.size = f.locals.size := by
        cases dst with
        | scratch l => exact Array.size_setIfInBounds
        | _ => rfl
      exact (hkeep hI₁).imp_right (·.trans hsize)
    | store hwrite => exact ⟨hs.store hgood₁, fun hI => hkeep (hs.stored hI hwrite hgood₁)⟩

/-- An instruction that goes on with the next one lands behind it. -/
lemma straight_lands (hbranch : i.isBranch = false) (hs : Flat.Serves mem words slots good I noting s)
    (h : RunsSole good I noting s slots₀ pc word i m b r g) :
    Lands I pc (exitsOf b.terminator (pc + 4)) (fresh m b.scratch.types) r g := by
  obtain ⟨hi, hb, hword, hI, hrun, hgood⟩ := h
  have hraise : ∀ kind imm, i ≠ .exception kind imm := by
    rintro kind imm rfl
    cases hb
  -- the operations are plain, and the block stays open
  have hend := (Emits.straight hbranch hraise).agree _ _ _ ((settled_sole pc word slots₀).alike rfl)
  rw [show (Block.sole pc word slots₀).alone = .sole pc word slots₀ from rfl, hb] at hend
  obtain ⟨_, rfl, halike⟩ := hend
  obtain ⟨xs, D, hxs, -, -, hnone, -, hplain⟩ := halike.ops
  have hxs' : b.ops.toList = xs := hxs
  rw [← hxs'] at hplain
  obtain ⟨rfl, hsteps, hbare⟩ := Interp.observeOps_plain hplain Flat.unserved hrun
  obtain ⟨-, hkeep⟩ := plainSteps_keep hs hsteps hgood
  obtain ⟨hI', hsize⟩ := hkeep hI
  refine .of_steps (a := pc + 4) hI' hsize (by rw [hnone]; rfl) (Flat.steps_of_instr hword hi ?_)
  -- what the instruction is compiled to does not depend on the slots
  have hlower : lowerWord word (.sole pc word (.ofSize 0)) = .ok () { b with slots := .ofSize 0 } := by
    have := ordinary_lower (i := i) (by rintro offset rfl; cases hbranch)
    obtain ⟨result, added, terminator, scratch, -, -, hact⟩ := Ordinary.acts (m := lower i) pc none .empty
    have hact₀ := hact word #[] slots₀
    rw [show lower i ⟨pc, word, #[], none, .empty, slots₀⟩ = _ from hb] at hact₀
    rw [lowerWord_eq, hi]
    refine (hact word #[] (.ofSize 0)).trans ?_
    cases result with
    | error e => cases hact₀
    | ok u =>
      cases hact₀
      rfl
  have hstraight : Flat.straight word (m.flat pc) = some (g.machine.flat (pc + 4)) := by
    have hbare' : runOps Flat.unserved b.scratch.types b.ops.toList
        ⟨⟨m.cpu, m.mem, ()⟩, .replicate b.scratch.types.size 0⟩ = .ok none g.bare := hbare
    simp only [Block.sole] at hlower
    simp only [Flat.straight, Machine.flat, hlower, hbare']
    rfl
  exact (Flat.execute_straight hbranch word _).trans hstraight

/-! ### Pieces of instructions -/

/-- A piece of an instruction that is compiled by itself: its operations come to their end, and compute what the piece
does. -/
lemma piece_runs {α : Type} {piece : EmitM α} {P : α → α → Context → Prop} {Q : α → View → Prop}
    (hs : Flat.Serves mem words slots good I noting s) (hI : I m)
    (hE : Emits ⟨[], .plain⟩ piece piece P) (hP : ∀ a a' Γ, P a a' Γ → Γ.phase = .plain)
    (hC : Computes ⟨[], m.cpu, m.mem⟩ piece Q) (pc : UInt64) (word : UInt32) (slots₀ : Slots Code) :
    ∃ a b k, piece (.sole pc word slots₀) = .ok a b ∧ Q a k ∧
      ∀ {r : Option UInt64} {g : Frame H},
        observeOps noting s b.scratch.types b.ops.toList (fresh m b.scratch.types) = .ok r g →
        good g.machine.host → r = none ∧ I g.machine ∧ k.Fits b.scratch.types g := by
  have hend := hE.agree _ _ _ ((settled_sole pc word slots₀).alike rfl)
  obtain ⟨a, ops, scratch, k, hrun, hQ, -, -, htakes⟩ :=
    hC.run (.sole pc word slots₀) (owns_nil Ir.Scratch.valid_empty fun _ => Ir.Scratch.not_holds_empty)
  rw [show (Block.sole pc word slots₀).alone = .sole pc word slots₀ from rfl, hrun] at hend
  obtain ⟨Γ, hΓ, halike⟩ := hend
  obtain ⟨xs, D, hxs, -, -, hallow⟩ := halike.ops
  rw [hP _ _ _ hΓ] at hallow
  refine ⟨a, _, k, hrun, hQ, fun {r g} hobs hgood => ?_⟩
  have hops : (Block.sole pc word slots₀).ops ++ ops = ops := Array.empty_append
  dsimp only at hobs hxs ⊢
  rw [hops] at hobs hxs
  have hxs' : ops.toList = xs := hxs
  obtain ⟨rfl, hsteps, hbare⟩ := Interp.observeOps_plain (hxs' ▸ hallow.2.2) Flat.unserved hobs
  obtain ⟨hI', -⟩ := (plainSteps_keep hs hsteps hgood).2 hI
  obtain ⟨f', hrun', -, hfits⟩ := htakes Flat.unserved scratch.types (fresh m scratch.types).bare (.refl _)
    ⟨rfl, rfl, Array.size_replicate, nofun⟩
  rw [hbare] at hrun'
  cases hrun'
  exact ⟨rfl, hI', hfits.cpu, hfits.mem, hfits.size, hfits.cells⟩

lemma types_release {s s' : Ir.Scratch} {l : Ir.Local} (h : s.release l = some s') : s'.types = s.types := by
  unfold Ir.Scratch.release at h
  split at h
  · cases h
  · next ty _ =>
    split at h
    · cases h
      cases ty <;> rfl
    · cases h

lemma release_ok {l : Ir.Local} {b b' : Block} {u : Unit} (h : release l b = .ok u b') :
    b'.ops = b.ops ∧ b'.terminator = b.terminator ∧ b'.scratch.types = b.scratch.types := by
  unfold release at h
  cases hr : b.scratch.release l with
  | none =>
    rw [hr] at h
    cases h
  | some scratch =>
    rw [hr] at h
    cases h
    exact ⟨rfl, rfl, types_release hr⟩

lemma releaseAll_ok {ls : List Ir.Local} {b b' : Block} {u : Unit} (h : releaseAll ls b = .ok u b') :
    b'.ops = b.ops ∧ b'.terminator = b.terminator ∧ b'.scratch.types = b.scratch.types := by
  induction ls generalizing b with
  | nil =>
    cases h
    exact ⟨rfl, rfl, rfl⟩
  | cons l ls ih =>
    obtain ⟨_, b₁, hl, hls⟩ := EStateM.of_bind_ok (h : (release l >>= fun _ => releaseAll ls) b = .ok u b')
    obtain ⟨hops, hterm, htypes⟩ := release_ok hl
    obtain ⟨hops', hterm', htypes'⟩ := ih hls
    exact ⟨hops'.trans hops, hterm'.trans hterm, htypes'.trans htypes⟩

lemma terminate_ok {t : Terminator} {b b' : Block} {u : Unit} (h : terminate t b = .ok u b') :
    b'.ops = b.ops ∧ b'.terminator = some t ∧ b'.scratch = b.scratch := by
  unfold terminate at h
  split at h
  · cases h
  · cases h
    exact ⟨rfl, rfl, rfl⟩

/-- A branch to a displacement, if a value that is computed is not zero. -/
lemma gotoIf_lands {piece : EmitM Ir.Local} {offset : UInt64} {taken : Bool}
    (hs : Flat.Serves mem words slots good I noting s)
    (hE : Emits ⟨[], .plain⟩ piece piece (Gives [] .plain))
    (hC : Computes ⟨[], m.cpu, m.mem⟩ piece (Supplies ⟨[], m.cpu, m.mem⟩ .i32 taken.toUInt64))
    (hlower : lower i = (do gotoIf ((← currentPc) + offset) (← piece)))
    (hstep : (m.flat pc).execute word i = some ((m.flat pc).branch taken offset))
    (h : RunsSole good I noting s slots₀ pc word i m b r g) :
    Lands I pc (exitsOf b.terminator (pc + 4)) (fresh m b.scratch.types) r g := by
  obtain ⟨hi, hb, hword, hI, hrun, hgood⟩ := h
  obtain ⟨l, b₁, k, hpiece, hk, hruns⟩ := piece_runs hs hI hE (fun _ _ _ h => by rw [h]) hC pc word slots₀
  rw [hlower, EStateM.bind_ok (rfl : currentPc (.sole pc word slots₀) = .ok pc (.sole pc word slots₀)),
    EStateM.bind_ok hpiece] at hb
  obtain ⟨_, b₂, hgoto, hrelease⟩ := EStateM.of_bind_ok hb
  obtain ⟨hops, hterm, htypes⟩ := release_ok hrelease
  obtain ⟨hops₁, hterm₁, hscratch₁⟩ := terminate_ok hgoto
  rw [hops, hops₁, htypes, hscratch₁] at hrun
  rw [hterm, hterm₁, htypes, hscratch₁]
  obtain ⟨rfl, hI', hfits⟩ := hruns hrun hgood
  have hvalue : g.read (.place (.scratch l)) = taken.toUInt64 := by
    rw [hk] at hfits
    exact Has.read (.at 0 rfl) hfits
  have hflat : ∀ a, g.machine.flat a = m.flat a := fun a => by
    rw [hk] at hfits
    simp only [Machine.flat, hfits.cpu, hfits.mem]
  refine .of_steps (a := if taken then pc + offset else pc + 4) hI' ?_ ?_ ?_
  · exact hfits.size.trans Array.size_replicate.symm
  · show Exits.target g [(some (.place (.scratch l)), pc + offset), (none, pc + 4)] = _
    rw [Exits.target, hvalue]
    cases taken <;> rfl
  · rw [hflat]
    exact Flat.steps_of_instr hword hi hstep

/-! ### Conditional branches -/

/-- Compare a register with zero. -/
def zeroCheck (width : Width) (nonzero : Bool) (rt : Nat) : EmitM Ir.Local := do
  let taken ← alloc .i32
  cmp taken (zeroTest nonzero) width (gpr rt) (.imm 0)
  return taken

/-- Compare a bit of a register with zero. -/
def bitCheck (nonzero : Bool) (bit rt : Nat) : EmitM Ir.Local := do
  let value ← alloc .i64
  bin value .shrU .w64 (gpr rt) (const bit)
  bin value .and .w64 (.place value) (.imm 1)
  let taken ← alloc .i32
  cmp taken (zeroTest nonzero) .w64 (.place value) (.imm 0)
  release value
  return taken

/-- A comparison with zero tells whether a value is zero. -/
lemma zeroTest_holds (nonzero : Bool) (width : Width) (v : UInt64) :
    (zeroTest nonzero).holds width v 0 = ((v &&& width.mask != 0) == nonzero) := by
  cases nonzero <;> simp [zeroTest, Ir.CmpOp.holds, bne]

lemma emits_zeroCheck (width : Width) (nonzero : Bool) (rt : Nat) :
    Emits ⟨[], .plain⟩ (zeroCheck width nonzero rt) (zeroCheck width nonzero rt) (Gives [] .plain) :=
  .alloc _ fun _ _ => .next (.cmp [] rfl rfl (gpr_alike rt) (.imm _)) fun _ _ => .pure rfl

lemma computes_zeroCheck (k : View) (width : Width) (nonzero : Bool) (rt : Nat) : Computes k
    (zeroCheck width nonzero rt) (Supplies k .i32 ((k.cpu.readX rt width != 0) == nonzero).toUInt64) := by
  refine .alloc _ fun taken => .next (.cmp [] rfl (has_gpr _ rt) (.imm 0)) fun _ => .pure ?_
  rw [zeroTest_holds, Cpu.State.readX_and_mask]
  rfl

lemma emits_bitCheck (nonzero : Bool) (bit rt : Nat) :
    Emits ⟨[], .plain⟩ (bitCheck nonzero bit rt) (bitCheck nonzero bit rt) (Gives [] .plain) := by
  refine .alloc _ fun value value' => .next (.bin [] rfl rfl (gpr_alike rt) (.imm _)) fun _ _ => ?_
  refine .next (.bin [] rfl rfl top (.imm _)) fun _ _ => .alloc _ fun taken taken' => ?_
  refine .next (.cmp [] rfl rfl (up top) (.imm _)) fun _ _ => ?_
  exact .next (.release [_] rfl) fun _ _ => .pure rfl

lemma computes_bitCheck (k : View) (nonzero : Bool) {bit : Nat} (hbit : bit < 64) (rt : Nat) : Computes k
    (bitCheck nonzero bit rt) (Supplies k .i32 (Bits.bit (k.cpu.readX rt .w64) bit == nonzero).toUInt64) := by
  refine .alloc _ fun value => .next (.bin [] rfl (has_gpr _ rt) (.imm _)) fun _ => ?_
  refine .next (.bin [] rfl (.at 0 rfl) (.imm 1)) fun _ => .alloc _ fun taken => ?_
  refine .next (.cmp [] rfl (.at 1 rfl) (.imm 0)) fun _ => ?_
  refine .next (.release [_] rfl) fun _ => .pure ?_
  rw [shifted_bit hbit, zeroTest_holds, Width.toUInt64_and_mask]
  cases Bits.bit (k.cpu.readX rt .w64) bit <;> rfl

/-! ### Calls -/

lemma read_gpr (f : Frame H) (n : Nat) : f.read (gpr n) = f.machine.cpu.readX n .w64 := by
  unfold gpr
  split
  · next h =>
    rw [Cpu.State.readX_of_le _ (Nat.le_of_eq h.symm)]
    rfl
  · rfl

/-- Reading a scratch local that has just been written. -/
lemma read_write_scratch {l : Ir.Local} (h : l.id < f.locals.size) (v : UInt64) :
    (f.write T (.scratch l) v).read (.place (.scratch l)) = v &&& (T.getD l.id .i64).mask := by
  show (f.locals.setIfInBounds l.id _).getD l.id 0 = _
  rw [Array.getD_eq_getD_getElem?, Array.getElem?_setIfInBounds, if_pos rfl, if_pos h]
  rfl

lemma read_write_scratch_ne {l l' : Ir.Local} (h : l.id ≠ l'.id) (v : UInt64) :
    (f.write T (.scratch l) v).read (.place (.scratch l')) = f.read (.place (.scratch l')) := by
  show (f.locals.setIfInBounds l.id _).getD l'.id 0 = f.locals.getD l'.id 0
  rw [Array.getD_eq_getD_getElem?, Array.getElem?_setIfInBounds, if_neg h, Array.getD_eq_getD_getElem?]

lemma observeOps_go {op : Op} {rest : List Op} {f₁ : Frame H} (h : Interp.observeOp noting s T op f = .ok none f₁) :
    observeOps noting s T (op :: rest) f = observeOps noting s T rest f₁ := by
  rw [observeOps, EStateM.bind_ok h]

/-- A request that is served is followed by the operations behind it. -/
lemma observeOps_request {op : Op} {dst : Ir.Place} {request : Interp.Request} {rest : List Op}
    (hop : Interp.observeOp noting s T op f =
      (do Interp.write T dst (← Interp.onMachine (s.request request)); return none : Run Error (Frame H) _) f)
    (hs : s.Backward good noting) (hrun : observeOps noting s T (op :: rest) f = .ok r g)
    (hgood : good g.machine.host) :
    ∃ v m', s.request request f.machine = .ok v m' ∧ good m'.host ∧
      observeOps noting s T rest (Frame.write T ⟨m', f.locals⟩ dst v) = .ok r g := by
  rw [observeOps] at hrun
  obtain ⟨r₁, f₁, hfirst, hrest⟩ := EStateM.of_bind_ok hrun
  rw [hop] at hfirst
  obtain ⟨v, f₂, hrequest, hwrite⟩ := EStateM.of_bind_ok hfirst
  cases hm : s.request request f.machine with
  | error e m' =>
    rw [Interp.onMachine_error hm] at hrequest
    cases hrequest
  | ok v' m' =>
    rw [Interp.onMachine_ok hm] at hrequest
    cases hrequest
    cases hwrite
    refine ⟨v, m', rfl, ?_, hrest⟩
    rw [← Interp.host_write T ⟨m', f.locals⟩ dst v]
    refine Interp.observeOps_back hs T rest _ ?_
    rwa [show observeOps noting s T rest _ = .ok r g from hrest]

/-- A call that has come back to an address goes on if this is the next instruction, and returns to it otherwise. -/
lemma returnUnless_lands {l l' : Ir.Local} {v : UInt64} {m' : Machine H} {locals : Array UInt64} {a : UInt64}
    (hne : l'.id ≠ l.id) (hlt : l.id < locals.size) (hlt' : l'.id < locals.size) (hT : T.getD l.id .i64 = .i64)
    (hsize : locals.size = f.locals.size) (hstep : (f.machine.flat pc).Steps (m.flat a))
    (hreach : Flat.Reaches (m.flat a) (m'.flat v)) (hI : I m')
    (hrun : observeOps noting s T [.cmp .ne .w64 (.scratch l') (.place (.scratch l)) (.imm (pc + 4)),
      .branch (.place (.scratch l')) [.ret (.place (.scratch l))] []]
      (Frame.write T ⟨m', locals⟩ (.scratch l) v) = .ok r g) :
    Lands I pc [(none, pc + 4)] f r g := by
  let f₁ : Frame H := Frame.write T ⟨m', locals⟩ (.scratch l) v
  let f₂ : Frame H := f₁.write T (.scratch l') (Ir.CmpOp.eval .ne .w64 (f₁.read (.place (.scratch l))) (pc + 4))
  have hread : f₁.read (.place (.scratch l)) = v := by
    refine (read_write_scratch (f := ⟨m', locals⟩) hlt v).trans ?_
    rw [hT, Ir.Ty.and_mask_i64]
  have hread₂ : f₂.read (.place (.scratch l)) = v := (read_write_scratch_ne hne _).trans hread
  have hdiffers : f₂.read (.place (.scratch l')) = (v != pc + 4).toUInt64 := by
    refine (read_write_scratch (by simpa [f₁, Frame.write] using hlt') _).trans ?_
    rw [Ir.CmpOp.eval, Ir.Ty.toUInt64_and_mask, hread]
    simp [Ir.CmpOp.holds]
  -- the comparison writes a local, and the branch returns or does nothing
  have hends : observeOps noting s T [.cmp .ne .w64 (.scratch l') (.place (.scratch l)) (.imm (pc + 4)),
      .branch (.place (.scratch l')) [.ret (.place (.scratch l))] []] f₁ =
      .ok (if v != pc + 4 then some v else none) f₂ := by
    have hcompare : Interp.observeOp noting s T
        (.cmp .ne .w64 (.scratch l') (.place (.scratch l)) (.imm (pc + 4))) f₁ = .ok none f₂ := rfl
    have hleave := @Interp.observeOp_leave H noting s T (.place (.scratch l')) (.place (.scratch l)) f₂
    rw [hread₂, hdiffers] at hleave
    rw [observeOps_go hcompare, observeOps]
    refine (EStateM.bind_ok hleave).trans ?_
    cases v != pc + 4 <;> rfl
  obtain ⟨hr, hg⟩ : (if v != pc + 4 then some v else none) = r ∧ f₂ = g := by
    have := hends.symm.trans hrun
    injection this with hr hg
    exact ⟨hr, hg⟩
  subst hr hg
  refine ⟨hI, fun _ => ?_, fun a' ha' => ?_⟩
  · simpa [f₂, f₁, Frame.write] using hsize
  · have hv : v = a' := by
      by_cases hv : v = pc + 4
      · subst hv
        simpa [Exits.target] using ha'
      · simpa [hv, bne] using ha'
    exact hv ▸ .head hstep hreach

lemma lower_call (offset : UInt64) : lower (.branch true offset) (.sole pc word slots₀) = .ok () ⟨pc, word,
    #[.mov .w64 (.x 30) (.imm (pc + 4)), .call (.scratch ⟨0⟩) (slots₀.functionSlot (pc + offset)).1,
      .cmp .ne .w64 (.scratch ⟨1⟩) (.place (.scratch ⟨0⟩)) (.imm (pc + 4)),
      .branch (.place (.scratch ⟨1⟩)) [.ret (.place (.scratch ⟨0⟩))] []], none,
    ⟨#[.i64, .i32], #[false, false], [⟨1⟩], [⟨0⟩]⟩, (slots₀.functionSlot (pc + offset)).2⟩ := rfl

lemma lower_callReg (rn : Nat) : lower (.branchReg true rn) (.sole pc word slots₀) = .ok () ⟨pc, word,
    #[.mov .w64 (.scratch ⟨0⟩) (gpr rn), .mov .w64 (.x 30) (.imm (pc + 4)),
      .jump (.scratch ⟨1⟩) (.place (.scratch ⟨0⟩)),
      .cmp .ne .w64 (.scratch ⟨2⟩) (.place (.scratch ⟨1⟩)) (.imm (pc + 4)),
      .branch (.place (.scratch ⟨2⟩)) [.ret (.place (.scratch ⟨1⟩))] []], none,
    ⟨#[.i64, .i64, .i32], #[false, false, false], [⟨2⟩], [⟨1⟩, ⟨0⟩]⟩, slots₀⟩ := rfl

lemma lower_jumpReg (rn : Nat) : lower (.branchReg false rn) (.sole pc word slots₀) = .ok () ⟨pc, word,
    #[.jump (.scratch ⟨0⟩) (gpr rn), .ret (.place (.scratch ⟨0⟩))], some .stop,
    ⟨#[.i64], #[false], [], [⟨0⟩]⟩, slots₀⟩ := rfl

/-- The link register is written with an address. -/
lemma observeOp_link (f : Frame H) (link : UInt64) :
    Interp.observeOp noting s T (.mov .w64 (.x 30) (.imm link)) f =
      .ok none ⟨⟨f.machine.cpu.writeX 30 .w64 link, f.machine.mem, f.machine.host⟩, f.locals⟩ := by
  have hwhole : f.machine.cpu.writePlace (.x 30) (link &&& Width.mask .w64) = f.machine.cpu.writeX 30 .w64 link := by
    rw [Width.and_mask_w64]
    rfl
  rw [← hwhole]
  rfl

section
variable (hs : Flat.Serves mem words slots good I noting s)
include hs

lemma call_lands {offset : UInt64} (h : RunsSole good I noting s slots₀ pc word (.branch true offset) m b r g)
    (hslots : b.slots.Extends slots) :
    Lands I pc (exitsOf b.terminator (pc + 4)) (fresh m b.scratch.types) r g := by
  obtain ⟨hi, hb, hword, hI, hrun, hgood⟩ := h
  rw [lower_call] at hb
  cases hb
  have hcall := (observeOps_go (observeOp_link _ _)).symm.trans hrun
  obtain ⟨v, m', hrequest, hgood', hrest⟩ := observeOps_request rfl hs.toBackward hcall hgood
  obtain ⟨hI', hreach⟩ := hs.call (hslots _ _ (Linking.Slots.ofAddr_functionSlot slots₀ (pc + offset)))
    (hs.write _ hI) hrequest hgood'
  refine returnUnless_lands (by decide) (by simp [fresh]) (by simp [fresh]) rfl rfl ?_ hreach hI' hrest
  exact Flat.steps_of_instr hword hi rfl

lemma callReg_lands {rn : Nat} (h : RunsSole good I noting s slots₀ pc word (.branchReg true rn) m b r g) :
    Lands I pc (exitsOf b.terminator (pc + 4)) (fresh m b.scratch.types) r g := by
  obtain ⟨hi, hb, hword, hI, hrun, hgood⟩ := h
  rw [lower_callReg] at hb
  cases hb
  let T : Array Ty := #[.i64, .i64, .i32]
  let f₁ : Frame H := (fresh m T).write T (.scratch ⟨0⟩) ((fresh m T).read (gpr rn) &&& Width.mask .w64)
  have hcopy : Interp.observeOp noting s T (.mov .w64 (.scratch ⟨0⟩) (gpr rn)) (fresh m T) = .ok none f₁ := rfl
  have hcall := (observeOps_go (observeOp_link f₁ _)).symm.trans ((observeOps_go hcopy).symm.trans hrun)
  obtain ⟨v, m', hrequest, hgood', hrest⟩ := observeOps_request rfl hs.toBackward hcall hgood
  -- the target is read before the link is written
  have htarget : Frame.read
      ⟨⟨f₁.machine.cpu.writeX 30 .w64 (pc + 4), f₁.machine.mem, f₁.machine.host⟩, f₁.locals⟩
      (.place (.scratch ⟨0⟩)) = m.cpu.readX rn .w64 := by
    refine (read_write_scratch (f := fresh m T) (l := ⟨0⟩) (by simp [fresh, T]) _).trans ?_
    rw [Width.and_mask_w64, read_gpr]
    exact Ir.Ty.and_mask_i64 _
  rw [htarget] at hrequest
  obtain ⟨hI', hreach⟩ := hs.jump (hs.write _ hI) hrequest hgood'
  have hsize : f₁.locals.size = 3 := by simp [f₁, Frame.write, fresh, T]
  refine returnUnless_lands (by decide) (by simp [hsize]) (by simp [hsize]) rfl (hsize.trans (by simp [fresh])) ?_
    hreach hI' hrest
  exact Flat.steps_of_instr hword hi rfl

lemma jumpReg_lands {rn : Nat} (h : RunsSole good I noting s slots₀ pc word (.branchReg false rn) m b r g) :
    Lands I pc (exitsOf b.terminator (pc + 4)) (fresh m b.scratch.types) r g := by
  obtain ⟨hi, hb, hword, hI, hrun, hgood⟩ := h
  rw [lower_jumpReg] at hb
  cases hb
  obtain ⟨v, m', hrequest, hgood', hrest⟩ := observeOps_request rfl hs.toBackward hrun hgood
  rw [read_gpr] at hrequest
  cases hrest
  have hread : Frame.read (Frame.write #[.i64] ⟨m', (fresh m #[.i64]).locals⟩ (.scratch ⟨0⟩) v)
      (.place (.scratch ⟨0⟩)) = v :=
    (read_write_scratch (l := ⟨0⟩) (by simp [fresh]) _).trans (Ir.Ty.and_mask_i64 _)
  obtain ⟨hI', hreach⟩ := hs.jump hI hrequest hgood'
  refine ⟨hI', nofun, fun a ha => ?_⟩
  obtain rfl : v = a := by
    rw [← hread]
    exact Option.some.inj ha
  exact .head (Flat.steps_of_instr hword hi rfl) hreach

end

lemma ret_lands {rn : Nat} (h : RunsSole good I noting s slots₀ pc word (.ret rn) m b r g) :
    Lands I pc (exitsOf b.terminator (pc + 4)) (fresh m b.scratch.types) r g := by
  obtain ⟨hi, hb, hword, hI, hrun, -⟩ := h
  cases hb
  cases hrun
  refine .of_steps (a := m.cpu.readX rn .w64) hI rfl ?_ (Flat.steps_of_instr hword hi rfl)
  exact congrArg some (read_gpr (fresh m #[]) rn)

lemma goto_lands {a : UInt64} (hstep : (m.flat pc).Steps (m.flat a)) (hI : I m) :
    Lands I pc [(none, a)] (fresh m T) none (fresh m T) :=
  .of_steps hI rfl rfl hstep

/-! ### Returns from an exception -/

/-- Restore the status before a return from an exception; gives the copies of the banked registers and a local. -/
def restoreStatus : EmitM (Ir.Local × Ir.Local × Ir.Local) := do
  let spsr ← copy (.place (.spsr .current))
  let elr ← copy (.place (.elr .current))
  let t ← alloc .i64
  unpackFlags t (.place spsr)
  bin .spsel .and .w64 (.place spsr) (.imm 1)
  bin t .shrU .w64 (.place spsr) (.imm 2)
  bin .el .and .w64 (.place t) (.imm 3)
  return (spsr, elr, t)

lemma exceptionReturn_eq : exceptionReturn = (do
    let ls ← restoreStatus
    emit (.ret (.place ls.2.1))
    releaseAll [ls.1, ls.2.1, ls.2.2]
    stop) := by
  simp only [exceptionReturn, restoreStatus, bind_assoc, pure_bind]

lemma emits_restoreStatus : Emits ⟨[], .plain⟩ restoreStatus restoreStatus fun _ _ Γ => Γ.phase = .plain := by
  refine .give (.copy (.place nofun)) fun spsr spsr' => ?_
  refine .give (.copy (.place nofun)) fun elr elr' => ?_
  refine .alloc _ fun t t' => ?_
  refine .next (.unpackFlags (up top)) fun _ _ => ?_
  refine .next (.binTo rfl nofun (ready (by simp)) (.imm _)) fun _ _ => ?_
  refine .next (.bin [] rfl rfl (ready (by simp)) (.imm _)) fun _ _ => ?_
  exact .next (.binTo rfl nofun top (.imm _)) fun _ _ => .pure rfl

/-- A new local has the value of an operand. -/
lemma computes_copy {k : View} {x : Ir.Operand} {v : UInt64} (hx : Has k x v) :
    Computes k (copy x) (Supplies k .i64 v) := by
  refine .alloc _ fun l => ?_
  refine .next (.write [] rfl (writes_mov (hx.up [⟨l, .i64, none⟩])) (Ir.Ty.and_mask_i64 _)) fun _ => ?_
  rw [Width.and_mask_w64]
  exact .pure rfl

/-- The status that is restored is put together from parts of the saved one. -/
lemma restore_eq (cpu : Cpu.State) (v : UInt64) :
    ((cpu.writeNzcv (.ofBits (v >>> 28).toNat)).writePlace .spsel (Ir.BinOp.eval .and .w64 v 1)).writePlace .el
      (Ir.BinOp.eval .and .w64 (Ir.BinOp.eval .shrU .w64 v 2) 3) = cpu.restore v := by
  have hspsel : (Ir.BinOp.eval .and .w64 v 1 &&& 1 == 1) = Bits.bit v 0 := by
    rw [eval_and_w64, UInt64.and_assoc, UInt64.and_self, and_one_eq, toUInt64_beq_one]
  have hshift : Ir.BinOp.eval .shrU .w64 v 2 = v >>> 2 := by
    simp only [Ir.BinOp.eval, Width.and_mask_w64]
    rfl
  have hel : (Ir.BinOp.eval .and .w64 (Ir.BinOp.eval .shrU .w64 v 2) 3 &&& 3 : UInt64) = v >>> 2 &&& 3 := by
    rw [eval_and_w64, hshift, UInt64.and_assoc, UInt64.and_self]
  let written := (cpu.writeNzcv (.ofBits (v >>> 28).toNat)).writeSpsel (Bits.bit v 0)
  show (((cpu.writeNzcv (.ofBits (v >>> 28).toNat)).writeSpsel _).writeEl _) = cpu.restore v
  rw [hspsel]
  exact congrArg (fun el => { written with el }) hel

lemma computes_restoreStatus (cpu : Cpu.State) (mem : Memory) : Computes ⟨[], cpu, mem⟩ restoreStatus fun ls k =>
    Has k (.place (.scratch ls.2.1)) (cpu.readElr cpu.readEl) ∧ k.cpu = cpu.restore (cpu.readSpsr cpu.readEl) ∧
      k.mem = mem := by
  refine .supply (computes_copy (.place (p := .spsr .current) nofun)) fun spsr => ?_
  refine .supply (computes_copy (.place (p := .elr .current) nofun)) fun elr => .alloc _ fun t => ?_
  refine .next (.unpackFlags fun _ _ => .at 2 rfl) fun _ => ?_
  refine .next (.binTo (p := .spsel) nofun (.at 2 rfl) (.imm 1)) fun _ => ?_
  refine .next (.bin [] rfl (.at 2 rfl) (.imm 2)) fun _ => ?_
  refine .next (.binTo (p := .el) nofun (.at 0 rfl) (.imm 3)) fun _ => .pure ⟨.at 1 rfl, ?_, rfl⟩
  exact restore_eq cpu _

lemma exceptionReturn_lands (hs : Flat.Serves mem words slots good I noting s)
    (h : RunsSole good I noting s slots₀ pc word .exceptionReturn m b r g) :
    Lands I pc (exitsOf b.terminator (pc + 4)) (fresh m b.scratch.types) r g := by
  obtain ⟨hi, hb, hword, hI, hrun, hgood⟩ := h
  obtain ⟨ls, b₁, k, hpiece, ⟨helr, hcpu, hmem⟩, hruns⟩ := piece_runs hs hI emits_restoreStatus
    (fun _ _ _ h => h) (computes_restoreStatus m.cpu m.mem) pc word slots₀
  rw [lower, exceptionReturn_eq, EStateM.bind_ok hpiece] at hb
  -- what follows returns to the address that was copied, and gives the locals back
  obtain ⟨_, b₂, hemit, hb⟩ := EStateM.of_bind_ok hb
  obtain ⟨_, b₃, hrelease, hstop⟩ := EStateM.of_bind_ok hb
  cases hemit
  obtain ⟨hops, -, htypes⟩ := releaseAll_ok hrelease
  obtain ⟨hops', hterm, hscratch⟩ := terminate_ok hstop
  rw [hops', hops, hscratch, htypes] at hrun
  rw [hscratch, htypes, hterm]
  rw [Array.toList_push, Interp.observeOps_append] at hrun
  obtain ⟨r₁, g₁, hfirst, hrest⟩ := EStateM.of_bind_ok hrun
  have hgood₁ : good g₁.machine.host := by
    cases r₁ <;> cases hrest <;> exact hgood
  obtain ⟨rfl, hI', hfits⟩ := hruns hfirst hgood₁
  cases hrest
  refine .of_steps (a := m.cpu.readElr m.cpu.readEl) hI' (hfits.size.trans Array.size_replicate.symm) ?_ ?_
  · exact congrArg some (helr.read hfits)
  · refine Flat.steps_of_instr hword hi ?_
    simp only [Machine.flat, hfits.cpu, hfits.mem, hcpu, hmem]
    rfl

/-- An instruction that is compiled by itself and runs from zero locals does what the flat machine does in a step, and
in a call what the flat machine does up to its end. -/
theorem sole_lands (hs : Flat.Serves mem words slots good I noting s)
    (h : RunsSole good I noting s slots₀ pc word i m b r g) (hslots : b.slots.Extends slots) :
    Lands I pc (exitsOf b.terminator (pc + 4)) (fresh m b.scratch.types) r g := by
  cases i with
  | branchCond consistent cond offset =>
    cases halways : cond.isAlways with
    | true =>
      have hgoto : lower (.branchCond consistent cond offset) = (do goto ((← currentPc) + offset) none) := by
        simp only [lower, branchCond, halways]
        rfl
      obtain ⟨hi, hb, hword, hI, hrun, -⟩ := h
      rw [hgoto] at hb
      cases hb
      cases hrun
      refine goto_lands (Flat.steps_of_instr hword hi ?_) hI
      exact congrArg (fun taken => some ((m.flat pc).branch taken offset)) (Cpu.Cond.holds_of_isAlways halways _)
    | false =>
      refine gotoIf_lands hs (.condHolds cond) (.condHolds cond) ?_ rfl h
      simp only [lower, branchCond, halways]
      rfl
  | compareBranch width nonzero rt offset =>
    refine gotoIf_lands hs (emits_zeroCheck width nonzero rt) (computes_zeroCheck _ width nonzero rt) ?_ rfl h
    simp only [lower, compareBranch, zeroCheck, bind_assoc, pure_bind]
  | testBranch nonzero bit rt offset =>
    refine gotoIf_lands hs (emits_bitCheck nonzero bit rt)
      (computes_bitCheck _ nonzero (encodable_of_instrOf h.instr).1 rt) ?_ rfl h
    simp only [lower, testBranch, bitCheck, bind_assoc, pure_bind]
  | branch link offset =>
    cases link with
    | true => exact call_lands hs h hslots
    | false =>
      obtain ⟨hi, hb, hword, hI, hrun, -⟩ := h
      cases hb
      cases hrun
      exact goto_lands (Flat.steps_of_instr hword hi rfl) hI
  | branchReg link rn =>
    cases link with
    | true => exact callReg_lands hs h
    | false => exact jumpReg_lands hs h
  | ret rn => exact ret_lands h
  | exceptionReturn => exact exceptionReturn_lands hs h
  | _ => exact straight_lands rfl hs h

end Dynarec.Compiler
