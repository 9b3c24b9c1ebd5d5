import Dynarec.Compiler.Lower
import Dynarec.Proofs.Compiler.Emits

/-!
# What the pieces of the compiler do to the context

One specification for every piece that instructions are compiled from, up to that of a whole
instruction: it gives back every scratch local that it takes, reads none that it has not written,
and ends its block at most once.
-/

namespace Dynarec

/-- Whether an instruction may go anywhere but to the next one. -/
def Instr.isBranch : Instr → Bool
  | .branchCond .. | .compareBranch .. | .testBranch .. | .branch .. | .branchReg .. | .ret _
  | .exceptionReturn => true
  | _ => false

end Dynarec

namespace Dynarec.Compiler

open Instr
open Ir (Op BinOp CmpOp Place Operand Local Ty Matching)

section
variable {D : Matching} {held held₁ : List Pair} {p : Pair} {l l' : Local} {x x' y y' : Operand}

/-! ### Operands -/

lemma gpr_alike (n : Nat) : (gpr n).Alike D (gpr n) := by
  unfold gpr
  split
  · exact .imm 0
  · exact .place nofun

lemma placeOrSp_ne (n : Nat) (l : Local) : placeOrSp n ≠ .scratch l := by
  unfold placeOrSp
  split <;> exact nofun

lemma gprOrSp_alike (n : Nat) : (gprOrSp n).Alike D (gprOrSp n) := .place (placeOrSp_ne n)

lemma dest_ne {n : Nat} {dst : Place} (h : dst ∈ dest n) (l : Local) : dst ≠ .scratch l := by
  unfold dest at h
  split at h
  · cases h
  · cases h
    exact nofun

/-- What is readable stays so when another pair is held. -/
lemma up (h : x.Alike (Ready held) x') : x.Alike (Ready (p :: held)) x' :=
  h.mono fun _ _ hl => List.mem_cons_of_mem _ hl

lemma ready (h : (⟨l, l', true⟩ : Pair) ∈ held) :
    Operand.Alike (Ready held) (.place (.scratch l)) (.place (.scratch l')) := .scratch h

/-- What is readable stays so when other pairs are held. -/
lemma ups (ps : List Pair) (h : x.Alike (Ready held) x') : x.Alike (Ready (ps ++ held)) x' :=
  h.mono fun _ _ hl => List.mem_append_right _ hl

/-- The pair that is held last is readable once written. -/
lemma top : Operand.Alike (Ready (⟨l, l', true⟩ :: held)) (.place (.scratch l))
    (.place (.scratch l')) := ready List.mem_cons_self

end

/-- What a bitfield move does with the field at the bottom: the bits around it are filled in. -/
def fillAround (width : Width) (op : BitfieldOp) (imms : Nat) (tmask : UInt64) (src : Operand)
    (rd : Place) (bottom : Local) : EmitM Unit := do
  let result ← alloc .i64
  bin result .and width (.place bottom) (.imm tmask)
  match ← bitfieldTop width op imms src rd with
  | some top =>
    bin top .and width (.place top) (.imm (~~~tmask))
    bin result .or width (.place result) (.place top)
    release top
  | none => pure ()
  move (some rd) (.place result) width
  release result
  release bottom

/-- What an operation on three sources does with the product: it is added to the third source or taken
from it, and given back. -/
def accumulate (width : Width) (sub : Bool) (ra rd : Nat) (out : Local) : EmitM Unit := do
  match dest rd with
  | some rd => bin rd (if sub then .sub else .add) width (gpr ra) (.place out)
  | none => pure ()
  release out

namespace Emits

variable {held before after : List Pair} {phase : Phase} {l l' : Local} {ready : Bool}
  {x x' y y' c c' : Operand} {dst : Place} {width : Width}

/-! ### Pieces -/

lemma move {dst : Option Place} (hopen : phase.isOpen) (hd : ∀ p ∈ dst, ∀ l, p ≠ .scratch l)
    (hx : x.Alike (Ready held) x') :
    Emits ⟨held, phase⟩ (move dst x width) (move dst x' width) (Leads ⟨held, phase⟩) := by
  cases dst with
  | none => exact skip
  | some p => exact place hopen (hd p rfl) (.mov hx) rfl

lemma moveDest {rd : Nat} (hopen : phase.isOpen) (hx : x.Alike (Ready held) x') :
    Emits ⟨held, phase⟩ (Compiler.move (dest rd) x width) (Compiler.move (dest rd) x' width)
      (Leads ⟨held, phase⟩) :=
  move hopen (fun _ => dest_ne) hx

lemma moveTo (hopen : phase.isOpen) (hd : ∀ l, dst ≠ .scratch l) (hx : x.Alike (Ready held) x') :
    Emits ⟨held, phase⟩ (Compiler.move (some dst) x width) (Compiler.move (some dst) x' width)
      (Leads ⟨held, phase⟩) :=
  place hopen hd (.mov hx) rfl

lemma binTo {op : BinOp} (hopen : phase.isOpen) (hd : ∀ l, dst ≠ .scratch l)
    (hx : x.Alike (Ready held) x') (hy : y.Alike (Ready held) y') :
    Emits ⟨held, phase⟩ (bin dst op width x y) (bin dst op width x' y') (Leads ⟨held, phase⟩) :=
  place hopen hd (.bin hx hy) rfl

lemma cmpTo {op : CmpOp} (hopen : phase.isOpen) (hd : ∀ l, dst ≠ .scratch l)
    (hx : x.Alike (Ready held) x') (hy : y.Alike (Ready held) y') :
    Emits ⟨held, phase⟩ (cmp dst op width x y) (cmp dst op width x' y') (Leads ⟨held, phase⟩) :=
  place hopen hd (.cmp hx hy) rfl

/-- A pair of held locals is written with the value of a binary operator. -/
lemma bin (before : List Pair) {op : BinOp} (hopen : phase.isOpen)
    (h : held = before ++ ⟨l, l', ready⟩ :: after) (hx : x.Alike (Ready held) x')
    (hy : y.Alike (Ready held) y') :
    Emits ⟨held, phase⟩ (bin l op width x y) (bin l' op width x' y')
      (Leads ⟨before ++ ⟨l, l', true⟩ :: after, phase⟩) :=
  write before hopen h (.bin hx hy) rfl

/-- A pair of held locals is written with the value of a comparison. -/
lemma cmp (before : List Pair) {op : CmpOp} (hopen : phase.isOpen)
    (h : held = before ++ ⟨l, l', ready⟩ :: after) (hx : x.Alike (Ready held) x')
    (hy : y.Alike (Ready held) y') :
    Emits ⟨held, phase⟩ (cmp l op width x y) (cmp l' op width x' y')
      (Leads ⟨before ++ ⟨l, l', true⟩ :: after, phase⟩) :=
  write before hopen h (.cmp hx hy) rfl

/-- A pair of held locals is written with a value. -/
lemma mov (before : List Pair) (hopen : phase.isOpen)
    (h : held = before ++ ⟨l, l', ready⟩ :: after) (hx : x.Alike (Ready held) x') :
    Emits ⟨held, phase⟩ (Compiler.move (some l) x width) (Compiler.move (some l') x' width)
      (Leads ⟨before ++ ⟨l, l', true⟩ :: after, phase⟩) :=
  write before hopen h (.mov hx) rfl

lemma copy (hx : x.Alike (Ready held) x') :
    Emits ⟨held, .plain⟩ (copy x) (copy x') (Gives held .plain) := by
  refine .alloc _ fun l l' => ?_
  refine .next (.write [] rfl rfl (.mov (up hx)) rfl) fun _ _ => ?_
  exact .pure rfl

lemma setNz (hx : x.Alike (Ready held) x') :
    Emits ⟨held, .plain⟩ (setNz width x) (setNz width x') (Leads ⟨held, .plain⟩) := by
  refine .next (binTo rfl nofun hx (.imm _)) fun _ _ => ?_
  exact cmpTo rfl nofun hx (.imm _)

lemma setLogicalFlags (hx : x.Alike (Ready held) x') :
    Emits ⟨held, .plain⟩ (setLogicalFlags width x) (setLogicalFlags width x')
      (Leads ⟨held, .plain⟩) := by
  refine .next (setNz hx) fun _ _ => ?_
  refine .next (moveTo rfl nofun (.imm _)) fun _ _ => ?_
  exact moveTo rfl nofun (.imm _)

lemma complement (hx : x.Alike (Ready held) x') :
    Emits ⟨held, .plain⟩ (complement width x) (complement width x') (Gives held .plain) := by
  refine .alloc _ fun l l' => ?_
  refine .next (bin [] rfl rfl (up hx) (.imm _)) fun _ _ => ?_
  exact .pure rfl

lemma addCarry (hx : x.Alike (Ready held) x') (hy : y.Alike (Ready held) y')
    (hc : c.Alike (Ready held) c') :
    Emits ⟨held, .plain⟩ (addCarry width x y c) (addCarry width x' y' c') (Gives held .plain) := by
  refine .alloc _ fun first first' => ?_
  refine .alloc _ fun result result' => ?_
  refine .next (bin [_] rfl rfl (up (up hx)) (up (up hy))) fun _ _ => ?_
  refine .next (bin [] rfl rfl (up top) (up (up hc))) fun _ _ => ?_
  refine .next (.release [_] rfl) fun _ _ => ?_
  exact .pure rfl

/-- The addition that sets the flags. -/
lemma addCarryFlags (hx : x.Alike (Ready held) x') (hy : y.Alike (Ready held) y')
    (hc : c.Alike (Ready held) c') :
    Emits ⟨held, .plain⟩ (addCarryFlags width x y c) (addCarryFlags width x' y' c')
      (Gives held .plain) := by
  refine .alloc _ fun first first' => ?_
  refine .alloc _ fun result result' => ?_
  refine .next (bin [_] rfl rfl (ups [_, _] hx) (ups [_, _] hy)) fun _ _ => ?_
  refine .next (bin [] rfl rfl (up top) (ups [_, _] hc)) fun _ _ => ?_
  refine .alloc _ fun c c' => ?_
  refine .alloc _ fun v v' => ?_
  refine .alloc _ fun a a' => ?_
  refine .alloc _ fun b b' => ?_
  refine .next (cmp [_, _, _] rfl rfl (ready (by simp)) (ups [_, _, _, _, _, _] hx)) fun _ _ => ?_
  refine .next (bin [_] rfl rfl (ups [_, _, _, _, _, _] hx) (ready (by simp))) fun _ _ => ?_
  refine .next (bin [] rfl rfl (ups [_, _, _, _, _, _] hy) (ready (by simp))) fun _ _ => ?_
  refine .next (bin [_] rfl rfl (ready (by simp)) (ready (by simp))) fun _ _ => ?_
  refine .next (bin [_, _] rfl rfl (ready (by simp)) (.imm _)) fun _ _ => ?_
  refine .next (cmp [_] rfl rfl (ready (by simp)) (ready (by simp))) fun _ _ => ?_
  refine .next (binTo rfl nofun (ready (by simp)) (ready (by simp))) fun _ _ => ?_
  refine .next (bin [_] rfl rfl (ready (by simp)) (ready (by simp))) fun _ _ => ?_
  refine .next (bin [] rfl rfl (ups [_, _, _, _, _, _] hc) (ready (by simp))) fun _ _ => ?_
  refine .next (bin [_] rfl rfl (ready (by simp)) (ready (by simp))) fun _ _ => ?_
  refine .next (bin [_] rfl rfl (ready (by simp)) (.imm _)) fun _ _ => ?_
  refine .next (binTo rfl nofun (ready (by simp)) (ready (by simp))) fun _ _ => ?_
  refine .next (setNz (ready (by simp))) fun _ _ => ?_
  refine .next (releaseAll [⟨first, first', true⟩, ⟨c, c', true⟩, ⟨v, v', true⟩, ⟨a, a', true⟩,
    ⟨b, b', true⟩] (⟨result, result', true⟩ :: held) rfl rfl ?_) fun _ _ => ?_
  · refine List.perm_iff_count.2 fun p => ?_
    simp only [List.append_eq, List.nil_append, List.cons_append, List.count_cons]
    omega
  · exact .pure rfl

lemma testFlags (cond : Cpu.Cond) :
    Emits ⟨⟨l, l', ready⟩ :: held, .plain⟩ (testFlags l cond) (testFlags l' cond)
      (Leads ⟨⟨l, l', true⟩ :: held, .plain⟩) := by
  cases cond with
  | eq | ne | cs | cc | mi | pl | vs | vc => exact mov [] rfl rfl (.place nofun)
  | hi | ls =>
    refine .next (bin [] rfl rfl (.place nofun) (.imm _)) fun _ _ => ?_
    exact bin [] rfl rfl top (.place nofun)
  | ge | lt => exact cmp [] rfl rfl (.place nofun) (.place nofun)
  | gt | le =>
    refine .alloc _ fun t t' => ?_
    refine .next (cmp [_] rfl rfl (.place nofun) (.place nofun)) fun _ _ => ?_
    refine .next (bin [] rfl rfl (.place nofun) (.imm _)) fun _ _ => ?_
    refine .next (bin [_] rfl rfl (Compiler.ready (by simp)) top) fun _ _ => ?_
    exact release [] rfl
  | al | nv => exact mov [] rfl rfl (.imm _)

lemma condHolds (cond : Cpu.Cond) :
    Emits ⟨held, .plain⟩ (condHolds cond) (condHolds cond) (Gives held .plain) := by
  refine .alloc _ fun l l' => ?_
  refine .next (testFlags cond) fun _ _ => ?_
  split
  · refine .next (bin [] rfl rfl top (.imm _)) fun _ _ => ?_
    exact .pure rfl
  · exact .pure rfl

/-! ### Operands with the locals that hold them -/

/-- The pieces give operands that are alike and the locals that these are in, held before those of a
context. -/
def Hands (held : List Pair) : Operand × List Local → Operand × List Local → Context → Prop :=
  fun r r' Γ' => ∃ ps : List Pair, r.2 = ps.map Pair.left ∧ r'.2 = ps.map Pair.right ∧
    Γ' = ⟨ps ++ held, .plain⟩ ∧ r.1.Alike (Ready (ps ++ held)) r'.1

/-- A piece that hands over operands is followed by another one. -/
lemma hand {α : Type} {m m' : EmitM (Operand × List Local)} {k k' : Operand × List Local → EmitM α}
    {Q : α → α → Context → Prop} (hm : Emits ⟨held, .plain⟩ m m' (Hands held))
    (hk : ∀ (ps : List Pair) y y', y.Alike (Ready (ps ++ held)) y' →
      Emits ⟨ps ++ held, .plain⟩ (k (y, ps.map Pair.left)) (k' (y', ps.map Pair.right)) Q) :
    Emits ⟨held, .plain⟩ (m >>= k) (m' >>= k') Q := by
  apply bind hm
  rintro ⟨y, ls⟩ ⟨y', ls'⟩ _ ⟨ps, rfl, rfl, rfl, hy⟩
  exact hk ps y y' hy

/-- An operand that is in no new local is handed over. -/
lemma handOld (hx : x.Alike (Ready held) x') :
    Emits ⟨held, .plain⟩ (Pure.pure (x, [])) (Pure.pure (x', [])) (Hands held) :=
  .pure ⟨[], rfl, rfl, rfl, hx⟩

/-- The value of a new local is handed over. -/
lemma handNew : Emits ⟨⟨l, l', true⟩ :: held, .plain⟩
    (Pure.pure (Operand.place (.scratch l), [l])) (Pure.pure (Operand.place (.scratch l'), [l']))
    (Hands held) :=
  .pure ⟨[⟨l, l', true⟩], rfl, rfl, rfl, top⟩

lemma shifted (rm shift amount : Nat) :
    Emits ⟨held, .plain⟩ (shifted width rm shift amount) (shifted width rm shift amount)
      (Hands held) := by
  unfold Compiler.shifted
  split
  · exact handOld (gpr_alike rm)
  · refine .alloc _ fun l l' => ?_
    refine .next (bin [] rfl rfl (gpr_alike rm) (.imm _)) fun _ _ => ?_
    exact handNew

lemma complementIf (inverted : Bool) (hy : y.Alike (Ready held) y') :
    Emits ⟨held, .plain⟩ (complementIf inverted width y) (complementIf inverted width y')
      (Hands held) := by
  cases inverted with
  | true => exact .give (complement hy) fun l l' => handNew
  | false => exact handOld hy

lemma extended (option amount : Nat) (hx : x.Alike (Ready held) x') :
    Emits ⟨held, .plain⟩ (extended x option amount) (extended x' option amount)
      (Gives held .plain) := by
  refine .alloc _ fun l l' => ?_
  refine .next (write [] rfl rfl (.extend (up hx)) rfl) fun _ _ => ?_
  split
  · refine .next (bin [] rfl rfl top (.imm _)) fun _ _ => ?_
    exact .pure rfl
  · exact .pure rfl

/-! ### Branches -/

lemma gotoIf (target : UInt64) : Emits ⟨⟨l, l', true⟩ :: held, .plain⟩ (gotoIf target l)
    (gotoIf target l') (Leads ⟨held, .ended⟩) :=
  .next (gotoWhen target top) fun _ _ => release [] rfl

/-- What an instruction leads to: nothing is held, and the block is still open or has ended. -/
def Done : Unit → Unit → Context → Prop :=
  fun _ _ Γ' => Γ'.held = [] ∧ Γ'.phase ≠ .returned

lemma done {m m' : EmitM Unit} {Γ : Context} {phase : Phase}
    (h : Emits Γ m m' (Leads ⟨[], phase⟩)) (hphase : phase ≠ .returned) : Emits Γ m m' Done := by
  apply h.mono
  rintro _ _ _ rfl
  exact ⟨rfl, hphase⟩

lemma branchCond (cond : Cpu.Cond) (offset : UInt64) :
    Emits ⟨[], .plain⟩ (branchCond cond offset) (branchCond cond offset) Done := by
  refine .currentPc fun pc => ?_
  dsimp only
  split
  · exact done (.goto _) nofun
  · exact done (.give (condHolds cond) fun l l' => gotoIf _) nofun

lemma compareBranch (nonzero : Bool) (rt : Nat) (offset : UInt64) :
    Emits ⟨[], .plain⟩ (compareBranch width nonzero rt offset)
      (compareBranch width nonzero rt offset) Done := by
  refine .currentPc fun pc => .alloc _ fun l l' => ?_
  refine .next (cmp [] rfl rfl (gpr_alike rt) (.imm _)) fun _ _ => ?_
  exact done (gotoIf _) nofun

lemma testBranch (nonzero : Bool) (bit rt : Nat) (offset : UInt64) :
    Emits ⟨[], .plain⟩ (testBranch nonzero bit rt offset) (testBranch nonzero bit rt offset)
      Done := by
  refine .currentPc fun pc => .alloc _ fun value value' => ?_
  refine .next (bin [] rfl rfl (gpr_alike rt) (.imm _)) fun _ _ => ?_
  refine .next (bin [] rfl rfl top (.imm _)) fun _ _ => ?_
  refine .alloc _ fun taken taken' => ?_
  refine .next (cmp [] rfl rfl (up top) (.imm _)) fun _ _ => ?_
  refine .next (release [_] rfl) fun _ _ => ?_
  exact done (gotoIf _) nofun

lemma returnUnless (expected : UInt64) : Emits ⟨⟨l, l', true⟩ :: held, .calling⟩
    (returnUnless l expected) (returnUnless l' expected)
    (Leads ⟨⟨l, l', true⟩ :: held, .calling⟩) := by
  refine .alloc _ fun differs differs' => ?_
  refine .next (cmp [] rfl rfl (up top) (.imm _)) fun _ _ => ?_
  refine .next (leave top (up top)) fun _ _ => ?_
  exact release [] rfl

lemma call (target link : UInt64) :
    Emits ⟨[], .plain⟩ (call target link) (call target link) Done := by
  refine .functionSlot target fun slot => ?_
  refine .next (moveTo rfl nofun (.imm _)) fun _ _ => ?_
  refine .alloc _ fun returned returned' => ?_
  refine .next (request [] rfl rfl .call) fun _ _ => ?_
  refine .next (returnUnless link) fun _ _ => ?_
  exact done (release [] rfl) nofun

lemma branch (link : Bool) (offset : UInt64) :
    Emits ⟨[], .plain⟩ (branch link offset) (branch link offset) Done := by
  refine .currentPc fun pc => ?_
  cases link with
  | true => exact call _ _
  | false => exact done (.goto _) nofun

lemma jumpReg (rn : Nat) : Emits ⟨[], .plain⟩ (jumpReg rn) (jumpReg rn) Done := by
  refine .alloc _ fun returned returned' => ?_
  refine .next (request [] rfl rfl (.jump (gpr_alike rn))) fun _ _ => ?_
  refine .next (ret rfl top) fun _ _ => ?_
  refine .next (release [] rfl) fun _ _ => ?_
  exact done stop nofun

lemma callReg (rn : Nat) : Emits ⟨[], .plain⟩ (callReg rn) (callReg rn) Done := by
  refine .give (copy (gpr_alike rn)) fun target target' => ?_
  refine .currentPc fun pc => ?_
  refine .next (moveTo rfl nofun (.imm _)) fun _ _ => ?_
  refine .alloc _ fun returned returned' => ?_
  refine .next (request [] rfl rfl (.jump (up top))) fun _ _ => ?_
  refine .next (release [_] rfl) fun _ _ => ?_
  refine .next (returnUnless _) fun _ _ => ?_
  exact done (release [] rfl) nofun

lemma returnTo (rn : Nat) : Emits ⟨[], .plain⟩ (returnTo rn) (returnTo rn) Done := by
  refine .next (ret rfl (gpr_alike rn)) fun _ _ => ?_
  exact done stop nofun

lemma unpackFlags (hx : x.Alike (Ready held) x') :
    Emits ⟨⟨l, l', false⟩ :: held, .plain⟩ (unpackFlags l x) (unpackFlags l' x')
      (Leads ⟨⟨l, l', false⟩ :: held, .plain⟩) := by
  refine forM (fun b => ?_) statusBits
  refine .next (bin [] rfl rfl (up hx) (.imm _)) fun _ _ => ?_
  exact forget (binTo rfl nofun top (.imm _))

lemma exceptionReturn : Emits ⟨[], .plain⟩ exceptionReturn exceptionReturn Done := by
  refine .give (copy (.place nofun)) fun spsr spsr' => ?_
  refine .give (copy (.place nofun)) fun elr elr' => ?_
  refine .alloc _ fun t t' => ?_
  refine .next (unpackFlags (up top)) fun _ _ => ?_
  refine .next (binTo rfl nofun (Compiler.ready (by simp)) (.imm _)) fun _ _ => ?_
  refine .next (bin [] rfl rfl (Compiler.ready (by simp)) (.imm _)) fun _ _ => ?_
  refine .next (binTo rfl nofun top (.imm _)) fun _ _ => ?_
  refine .next (ret rfl (up top)) fun _ _ => ?_
  refine .next (releaseAll [⟨spsr, spsr', true⟩, ⟨elr, elr', true⟩, ⟨t, t', true⟩] [] rfl rfl ?_)
    fun _ _ => ?_
  · refine List.perm_iff_count.2 fun p => ?_
    simp only [List.nil_append, List.cons_append, List.count_cons]
    omega
  · exact done stop nofun

/-! ### System registers -/

lemma writePstate (field : PstateField) (imm : Nat) :
    Emits ⟨[], .plain⟩ (writePstate field imm) (writePstate field imm) (Leads ⟨[], .plain⟩) := by
  cases field with
  | spsel => exact moveTo rfl nofun (.imm _)
  | daifSet | daifClr => exact binTo rfl nofun (.place nofun) (.imm _)

lemma writeBinding (hx : x.Alike (Ready []) x') (binding : Cpu.SysReg.Binding) :
    Emits ⟨[], .plain⟩ (writeBinding x binding) (writeBinding x' binding) (Leads ⟨[], .plain⟩) := by
  cases binding with
  | const | currentEl => exact skip
  | spsel | daif => exact binTo rfl nofun hx (.imm _)
  | nzcv =>
    refine .alloc _ fun t t' => ?_
    refine .next (unpackFlags hx) fun _ _ => ?_
    exact release [] rfl
  | backed | stackPointer | elr | spsr => exact moveTo rfl nofun hx

lemma writeSysReg (selector rt : Nat) :
    Emits ⟨[], .plain⟩ (writeSysReg selector rt) (writeSysReg selector rt) (Leads ⟨[], .plain⟩) := by
  unfold Compiler.writeSysReg
  split
  · exact writeBinding (gpr_alike rt) _
  · exact skip

lemma readBinding (hd : ∀ l, dst ≠ .scratch l) (binding : Cpu.SysReg.Binding) :
    Emits ⟨[], .plain⟩ (readBinding dst binding) (readBinding dst binding) (Leads ⟨[], .plain⟩) := by
  cases binding with
  | const => exact moveTo rfl hd (.imm _)
  | backed | spsel | daif | stackPointer | elr | spsr =>
    exact moveTo rfl hd (.place nofun)
  | currentEl => exact binTo rfl hd (.place nofun) (.imm _)
  | nzcv =>
    refine .alloc _ fun sum sum' => .alloc _ fun t t' => ?_
    refine .next (mov [_] rfl rfl (.imm _)) fun _ _ => ?_
    refine .next (forM (fun b => ?_) statusBits) fun _ _ => ?_
    · refine .next (bin [] rfl rfl (.place nofun) (.imm _)) fun _ _ => ?_
      exact forget (bin [_] rfl rfl (Compiler.ready (by simp)) top)
    · refine .next (moveTo rfl hd (Compiler.ready (by simp))) fun _ _ => ?_
      refine .next (release [] rfl) fun _ _ => ?_
      exact release [] rfl

lemma readSysReg (selector rt : Nat) :
    Emits ⟨[], .plain⟩ (readSysReg selector rt) (readSysReg selector rt) (Leads ⟨[], .plain⟩) := by
  unfold Compiler.readSysReg
  split
  · exact skip
  · next dst hdst =>
    split
    · exact readBinding (dest_ne hdst) _
    · exact moveTo rfl (dest_ne hdst) (.imm _)

/-! ### Loads and stores -/

lemma load (size : AccessSize) (signed : Bool) (hx : x.Alike (Ready held) x') :
    Emits ⟨held, .plain⟩ (load x size signed) (load x' size signed) (Gives held .plain) := by
  refine .alloc _ fun l l' => ?_
  refine .next (write [] rfl rfl (.load (up hx)) rfl) fun _ _ => ?_
  split
  · refine .next (write [] rfl rfl (.extend top) rfl) fun _ _ => ?_
    exact .pure rfl
  · exact .pure rfl

lemma transferAt (transfer : Transfer) (size : AccessSize) (rt : Nat)
    (hx : x.Alike (Ready held) x') :
    Emits ⟨held, .plain⟩ (transferAt transfer size rt x) (transferAt transfer size rt x')
      (Leads ⟨held, .plain⟩) := by
  cases transfer with
  | prefetch => exact skip
  | store => exact store rfl hx (gpr_alike rt)
  | load =>
    refine .give (load size _ hx) fun value value' => ?_
    refine .next (moveDest rfl top) fun _ _ => ?_
    exact release [] rfl

lemma addressed {act : Operand → EmitM Unit} (rn : Nat) (offset : UInt64) (mode : AddrMode)
    (hact : ∀ {held x x'}, x.Alike (Ready held) x' →
      Emits ⟨held, .plain⟩ (act x) (act x') (Leads ⟨held, .plain⟩)) :
    Emits ⟨[], .plain⟩ (addressed rn offset mode act) (addressed rn offset mode act) (Leads ⟨[], .plain⟩) := by
  unfold Compiler.addressed
  split
  · exact hact (gprOrSp_alike rn)
  · refine .alloc _ fun addr addr' => ?_
    refine .next (bin [] rfl rfl (gprOrSp_alike rn) (.imm _)) fun _ _ => ?_
    refine .next (hact ?_) fun _ _ => ?_
    · split
      · exact gprOrSp_alike rn
      · exact top
    · split
      · refine .next (moveTo rfl (placeOrSp_ne rn) top) fun _ _ => ?_
        exact release [] rfl
      · exact release [] rfl

lemma literal (transfer : Transfer) (size : AccessSize) (rt : Nat) (offset : UInt64) :
    Emits ⟨[], .plain⟩ (literal transfer size rt offset) (literal transfer size rt offset) (Leads ⟨[], .plain⟩) :=
  .currentPc fun _ => transferAt transfer size rt (.imm _)

lemma accessIndexed (transfer : Transfer) (size : AccessSize) (option : Nat) (scaled : Bool)
    (rm rn rt : Nat) :
    Emits ⟨[], .plain⟩ (accessIndexed transfer size option scaled rm rn rt)
      (accessIndexed transfer size option scaled rm rn rt) (Leads ⟨[], .plain⟩) := by
  refine .give (extended option _ (gpr_alike rm)) fun addr addr' => ?_
  refine .next (bin [] rfl rfl (gprOrSp_alike rn) top) fun _ _ => ?_
  refine .next (transferAt transfer size rt top) fun _ _ => ?_
  exact release [] rfl

lemma pairAt (isLoad : Bool) (size : AccessSize) (signed : Bool) (rt2 rt : Nat)
    (hx : x.Alike (Ready held) x') :
    Emits ⟨held, .plain⟩ (pairAt isLoad size signed rt2 rt x) (pairAt isLoad size signed rt2 rt x')
      (Leads ⟨held, .plain⟩) := by
  refine .alloc _ fun second second' => ?_
  refine .next (bin [] rfl rfl (up hx) (.imm _)) fun _ _ => ?_
  cases isLoad with
  | true =>
    refine .give (load size signed (up hx)) fun first first' => ?_
    refine .give (load size signed (up top)) fun last last' => ?_
    refine .next (moveDest rfl (up top)) fun _ _ => ?_
    refine .next (moveDest rfl top) fun _ _ => ?_
    refine releaseAll [⟨first, first', true⟩, ⟨last, last', true⟩, ⟨second, second', true⟩] _
      rfl rfl ?_
    refine List.perm_iff_count.2 fun p => ?_
    simp only [List.nil_append, List.cons_append, List.count_cons]
    omega
  | false =>
    refine .next (store rfl (up hx) (gpr_alike rt)) fun _ _ => ?_
    refine .next (store rfl top (gpr_alike rt2)) fun _ _ => ?_
    exact release [] rfl

/-! ### Operations on immediates -/

lemma address (page : Bool) (offset : UInt64) (rd : Nat) :
    Emits ⟨[], .plain⟩ (address page offset rd) (address page offset rd) (Leads ⟨[], .plain⟩) :=
  .currentPc fun _ => moveDest rfl (.imm _)

lemma addSubImm (sub setFlags isShifted : Bool) (imm rn rd : Nat) :
    Emits ⟨[], .plain⟩ (addSubImm width sub setFlags isShifted imm rn rd)
      (addSubImm width sub setFlags isShifted imm rn rd) (Leads ⟨[], .plain⟩) := by
  cases setFlags with
  | true =>
    refine .give (addCarryFlags (gprOrSp_alike rn) (.imm _) (.imm _)) fun result result' => ?_
    refine .next (moveDest rfl top) fun _ _ => ?_
    exact release [] rfl
  | false => exact binTo rfl (placeOrSp_ne rd) (gprOrSp_alike rn) (.imm _)

lemma logicalImm (op : LogicOp) (value : UInt64) (rn rd : Nat) :
    Emits ⟨[], .plain⟩ (logicalImm width op value rn rd) (logicalImm width op value rn rd)
      (Leads ⟨[], .plain⟩) := by
  unfold Compiler.logicalImm
  split
  · refine .alloc _ fun result result' => ?_
    refine .next (bin [] rfl rfl (gpr_alike rn) (.imm _)) fun _ _ => ?_
    refine .next (setLogicalFlags top) fun _ _ => ?_
    refine .next (moveDest rfl top) fun _ _ => ?_
    exact release [] rfl
  · exact binTo rfl (placeOrSp_ne rd) (gpr_alike rn) (.imm _)

lemma moveWide (op : MoveWideOp) (shift imm rd : Nat) :
    Emits ⟨[], .plain⟩ (moveWide width op shift imm rd) (moveWide width op shift imm rd) (Leads ⟨[], .plain⟩) := by
  unfold Compiler.moveWide
  split
  · exact skip
  · next dst hdst =>
    have hne := dest_ne hdst
    cases op with
    | movn | movz => exact moveTo rfl hne (.imm _)
    | movk =>
      refine .next (binTo rfl hne (.place hne) (.imm _)) fun _ _ => ?_
      exact binTo rfl hne (.place hne) (.imm _)

/-- The pieces may give a pair of new locals, written and held before those of a context. -/
inductive Perhaps (held : List Pair) : Option Local → Option Local → Context → Prop where
  | none : Perhaps held none none ⟨held, .plain⟩
  | some (l l' : Local) : Perhaps held (some l) (some l') ⟨⟨l, l', true⟩ :: held, .plain⟩

lemma bitfieldTop (op : BitfieldOp) (imms : Nat) (hx : x.Alike (Ready held) x')
    (hd : ∀ l, dst ≠ .scratch l) :
    Emits ⟨held, .plain⟩ (bitfieldTop width op imms x dst) (bitfieldTop width op imms x' dst)
      (Perhaps held) := by
  cases op with
  | sbfm =>
    refine .alloc _ fun l l' => ?_
    refine .next (bin [] rfl rfl (up hx) (.imm _)) fun _ _ => ?_
    refine .next (bin [] rfl rfl top (.imm _)) fun _ _ => ?_
    exact .pure (.some l l')
  | bfm => exact .give (copy (.place hd)) fun l l' => .pure (.some l l')
  | ubfm => exact .pure .none

lemma fillAround (op : BitfieldOp) (imms : Nat) (tmask : UInt64) (rn : Nat)
    (hd : ∀ l, dst ≠ .scratch l) :
    Emits ⟨[⟨l, l', true⟩], .plain⟩ (fillAround width op imms tmask (gpr rn) dst l)
      (fillAround width op imms tmask (gpr rn) dst l') (Leads ⟨[], .plain⟩) := by
  refine .alloc _ fun result result' => ?_
  refine .next (bin [] rfl rfl (up top) (.imm _)) fun _ _ => ?_
  have hrest : Emits ⟨[⟨result, result', true⟩, ⟨l, l', true⟩], .plain⟩
      (Compiler.move (some dst) (.place result) width >>= fun _ =>
        Compiler.release result >>= fun _ => Compiler.release l)
      (Compiler.move (some dst) (.place result') width >>= fun _ =>
        Compiler.release result' >>= fun _ => Compiler.release l') (Leads ⟨[], .plain⟩) := by
    refine .next (moveTo rfl hd top) fun _ _ => ?_
    refine .next (release [] rfl) fun _ _ => ?_
    exact release [] rfl
  refine .bind (bitfieldTop op imms (gpr_alike rn) hd) ?_
  rintro _ _ _ (_ | ⟨l, l'⟩)
  · exact hrest
  · refine .next (bin [] rfl rfl top (.imm _)) fun _ _ => ?_
    refine .next (bin [_] rfl rfl (Compiler.ready (by simp)) top) fun _ _ => ?_
    exact .next (release [] rfl) fun _ _ => hrest

lemma bitfield (op : BitfieldOp) (immr imms : Nat) (wmask tmask : UInt64) (rn rd : Nat) :
    Emits ⟨[], .plain⟩ (bitfield width op immr imms wmask tmask rn rd)
      (bitfield width op immr imms wmask tmask rn rd) (Leads ⟨[], .plain⟩) := by
  unfold Compiler.bitfield
  split
  · exact skip
  · next dst hdst =>
    have hne := dest_ne hdst
    refine .alloc _ fun bottom bottom' => ?_
    refine .next (bin [] rfl rfl (gpr_alike rn) (.imm _)) fun _ _ => ?_
    refine .next (bin [] rfl rfl top (.imm _)) fun _ _ => ?_
    have hrest : Emits ⟨[⟨bottom, bottom', true⟩], .plain⟩
        (Compiler.fillAround width op imms tmask (gpr rn) dst bottom)
        (Compiler.fillAround width op imms tmask (gpr rn) dst bottom') (Leads ⟨[], .plain⟩) :=
      fillAround op imms tmask rn hne
    split
    · refine .alloc _ fun kept kept' => ?_
      refine .next (bin [] rfl rfl (.place hne) (.imm _)) fun _ _ => ?_
      refine .next (bin [_] rfl rfl (up top) top) fun _ _ => ?_
      exact .next (release [] rfl) fun _ _ => hrest
    · exact hrest

lemma extract (lsb rm rn rd : Nat) :
    Emits ⟨[], .plain⟩ (extract width lsb rm rn rd) (extract width lsb rm rn rd) (Leads ⟨[], .plain⟩) := by
  unfold Compiler.extract
  split
  · exact moveDest rfl (gpr_alike rm)
  · refine .alloc _ fun low low' => .alloc _ fun high high' => ?_
    refine .next (bin [_] rfl rfl (gpr_alike rm) (.imm _)) fun _ _ => ?_
    refine .next (bin [] rfl rfl (gpr_alike rn) (.imm _)) fun _ _ => ?_
    refine .next (bin [_] rfl rfl (Compiler.ready (by simp)) top) fun _ _ => ?_
    refine .next (moveDest rfl (Compiler.ready (by simp))) fun _ _ => ?_
    refine .next (release [] rfl) fun _ _ => ?_
    exact release [] rfl

/-! ### Operations on registers -/

lemma logicalReg (op : LogicOp) (inverted : Bool) (shift amount rm rn rd : Nat) :
    Emits ⟨[], .plain⟩ (logicalReg width op inverted shift amount rm rn rd)
      (logicalReg width op inverted shift amount rm rn rd) (Leads ⟨[], .plain⟩) := by
  refine hand (shifted rm shift amount) fun ps y y' hy => ?_
  refine hand (complementIf inverted hy) fun qs y y' hy => ?_
  refine .alloc _ fun result result' => ?_
  refine .next (bin [] rfl rfl (gpr_alike rn) (up hy)) fun _ _ => ?_
  have hrest : Emits ⟨⟨result, result', true⟩ :: (qs ++ (ps ++ [])), .plain⟩
      (Compiler.move (dest rd) (.place result) width >>= fun _ =>
        Compiler.releaseAll (ps.map Pair.left ++ qs.map Pair.left ++ [result]))
      (Compiler.move (dest rd) (.place result') width >>= fun _ =>
        Compiler.releaseAll (ps.map Pair.right ++ qs.map Pair.right ++ [result'])) (Leads ⟨[], .plain⟩) := by
    refine .next (moveDest rfl top) fun _ _ => ?_
    refine releaseAll (ps ++ qs ++ [⟨result, result', true⟩]) _ (by simp) (by simp)
      (List.perm_iff_count.2 fun p => ?_)
    simp only [List.count_append, List.count_cons, List.count_nil]
    omega
  split
  · exact .next (setLogicalFlags top) fun _ _ => hrest
  · exact hrest

lemma addSub (sub setFlags : Bool) {rd : Option Place} (hd : ∀ p ∈ rd, ∀ l, p ≠ .scratch l)
    (hx : x.Alike (Ready held) x') (hy : y.Alike (Ready held) y') :
    Emits ⟨held, .plain⟩ (addSub width sub setFlags x y rd) (addSub width sub setFlags x' y' rd)
      (Leads ⟨held, .plain⟩) := by
  cases setFlags with
  | true =>
    refine hand (complementIf sub hy) fun ps y y' hy => ?_
    refine .give (addCarryFlags (ups ps hx) hy (.imm _)) fun result result' => ?_
    refine .next (move rfl hd top) fun _ _ => ?_
    refine releaseAll (ps ++ [⟨result, result', true⟩]) _ (by simp) (by simp)
      (List.perm_iff_count.2 fun p => ?_)
    simp only [List.count_append, List.count_cons, List.count_nil]
    omega
  | false =>
    cases rd with
    | none => exact skip
    | some p => exact binTo rfl (hd p rfl) hx hy

lemma addSubShifted (sub setFlags : Bool) (shift amount rm rn rd : Nat) :
    Emits ⟨[], .plain⟩ (addSubShifted width sub setFlags shift amount rm rn rd)
      (addSubShifted width sub setFlags shift amount rm rn rd) (Leads ⟨[], .plain⟩) := by
  refine hand (shifted rm shift amount) fun ps y y' hy => ?_
  refine .next (addSub sub setFlags (fun _ => dest_ne) (gpr_alike rn) hy) fun _ _ => ?_
  exact releaseHead ps

lemma addSubExtended (sub setFlags : Bool) (option amount rm rn rd : Nat) :
    Emits ⟨[], .plain⟩ (addSubExtended width sub setFlags option amount rm rn rd)
      (addSubExtended width sub setFlags option amount rm rn rd) (Leads ⟨[], .plain⟩) := by
  refine .give (extended option amount (gpr_alike rm)) fun y y' => ?_
  refine .next (addSub sub setFlags ?_ (gprOrSp_alike rn) top) fun _ _ => ?_
  · intro p hp
    split at hp
    · exact dest_ne hp
    · cases hp
      exact placeOrSp_ne rd
  · exact release [] rfl

lemma addSubCarry (sub setFlags : Bool) (rm rn rd : Nat) :
    Emits ⟨[], .plain⟩ (addSubCarry width sub setFlags rm rn rd)
      (addSubCarry width sub setFlags rm rn rd) (Leads ⟨[], .plain⟩) := by
  refine hand (complementIf sub (gpr_alike rm)) fun ps y y' hy => ?_
  have hrest : ∀ result result', Emits ⟨⟨result, result', true⟩ :: (ps ++ []), .plain⟩
      (Compiler.move (dest rd) (.place result) width >>= fun _ =>
        Compiler.releaseAll (ps.map Pair.left ++ [result]))
      (Compiler.move (dest rd) (.place result') width >>= fun _ =>
        Compiler.releaseAll (ps.map Pair.right ++ [result'])) (Leads ⟨[], .plain⟩) := by
    intro result result'
    refine .next (moveDest rfl top) fun _ _ => ?_
    refine releaseAll (ps ++ [⟨result, result', true⟩]) _ (by simp) (by simp)
      (List.perm_iff_count.2 fun p => ?_)
    simp only [List.count_append, List.count_cons, List.count_nil]
    omega
  cases setFlags with
  | true => exact .give (addCarryFlags (gpr_alike rn) hy (.place nofun)) hrest
  | false => exact .give (addCarry (gpr_alike rn) hy (.place nofun)) hrest

lemma condCompare (sub : Bool) (second : CompareOperand) (cond : Cpu.Cond) (nzcv rn : Nat) :
    Emits ⟨[], .plain⟩ (condCompare width sub second cond nzcv rn)
      (condCompare width sub second cond nzcv rn) (Leads ⟨[], .plain⟩) := by
  refine .give (condHolds cond) fun holds holds' => ?_
  refine hand (complementIf sub ?_) fun ps y y' hy => ?_
  · cases second with
    | imm n => exact .imm _
    | reg n => exact gpr_alike n
  refine .give (addCarryFlags (gpr_alike rn) hy (.imm _)) fun result result' => ?_
  refine .next (forM (fun b => ?_) _) fun _ _ => ?_
  · obtain ⟨flag, bit⟩ := b
    exact place (p := .flag flag) rfl nofun
      (.select (Compiler.ready (by simp)) (.place nofun) (.imm _)) rfl
  · refine releaseAll (ps ++ [⟨result, result', true⟩, ⟨holds, holds', true⟩]) _ (by simp) (by simp)
      (List.perm_iff_count.2 fun p => ?_)
    simp only [List.count_append, List.count_cons, List.count_nil]
    omega

lemma condSelect (invert increment : Bool) (cond : Cpu.Cond) (rm rn rd : Nat) :
    Emits ⟨[], .plain⟩ (condSelect width invert increment cond rm rn rd)
      (condSelect width invert increment cond rm rn rd) (Leads ⟨[], .plain⟩) := by
  unfold Compiler.condSelect
  split
  · exact skip
  · next dst hdst =>
    refine .give (condHolds cond) fun holds holds' => ?_
    refine .alloc _ fun otherwise otherwise' => ?_
    have hrest : Emits ⟨[⟨otherwise, otherwise', true⟩, ⟨holds, holds', true⟩], .plain⟩
        (emit (.select otherwise (.place holds) (gpr rn) (.place otherwise)) >>= fun _ =>
          Compiler.move (some dst) (.place otherwise) width >>= fun _ =>
            Compiler.release otherwise >>= fun _ => Compiler.release holds)
        (emit (.select otherwise' (.place holds') (gpr rn) (.place otherwise')) >>= fun _ =>
          Compiler.move (some dst) (.place otherwise') width >>= fun _ =>
            Compiler.release otherwise' >>= fun _ => Compiler.release holds') (Leads ⟨[], .plain⟩) := by
      refine .next (write [] rfl rfl (.select (up top) (gpr_alike rn) top) rfl) fun _ _ => ?_
      refine .next (moveTo rfl (dest_ne hdst) top) fun _ _ => ?_
      refine .next (release [] rfl) fun _ _ => ?_
      exact release [] rfl
    cases invert <;> cases increment
    · exact .next (mov [] rfl rfl (gpr_alike rm)) fun _ _ => hrest
    · exact .next (bin [] rfl rfl (gpr_alike rm) (.imm _)) fun _ _ => hrest
    · exact .next (bin [] rfl rfl (gpr_alike rm) (.imm _)) fun _ _ => hrest
    · exact .next (bin [] rfl rfl (.imm _) (gpr_alike rm)) fun _ _ => hrest

lemma twoSource (op : TwoSourceOp) (rm rn rd : Nat) :
    Emits ⟨[], .plain⟩ (twoSource width op rm rn rd) (twoSource width op rm rn rd) (Leads ⟨[], .plain⟩) := by
  unfold Compiler.twoSource
  split
  · exact skip
  · next dst hdst => exact binTo rfl (dest_ne hdst) (gpr_alike rn) (gpr_alike rm)

lemma accumulate (sub : Bool) (ra rd : Nat) :
    Emits ⟨[⟨l, l', true⟩], .plain⟩ (accumulate width sub ra rd l) (accumulate width sub ra rd l')
      (Leads ⟨[], .plain⟩) := by
  unfold Compiler.accumulate
  split
  · next dst hdst =>
    refine .next (binTo rfl (dest_ne hdst) (gpr_alike ra) top) fun _ _ => ?_
    exact release [] rfl
  · exact release [] rfl

lemma threeSource (product : Product) (sub : Bool) (rm ra rn rd : Nat) :
    Emits ⟨[], .plain⟩ (threeSource width product sub rm ra rn rd)
      (threeSource width product sub rm ra rn rd) (Leads ⟨[], .plain⟩) := by
  refine .alloc _ fun out out' => ?_
  cases product with
  | plain =>
    exact .next (bin [] rfl rfl (gpr_alike rn) (gpr_alike rm)) fun _ _ => accumulate sub ra rd
  | long signed =>
    refine .alloc _ fun rhs rhs' => ?_
    refine .next (write [_] rfl rfl (.extend (gpr_alike rn)) rfl) fun _ _ => ?_
    refine .next (write [] rfl rfl (.extend (gpr_alike rm)) rfl) fun _ _ => ?_
    refine .next (bin [_] rfl rfl (Compiler.ready (by simp)) top) fun _ _ => ?_
    exact .next (release [] rfl) fun _ _ => accumulate sub ra rd

/-! ### Instructions -/

/-- An instruction that goes on with the next one is compiled to plain operations, gives back every
scratch local that it takes and reads none that it has not written, whichever locals it gets. -/
theorem straight {i : Instr} (h : i.isBranch = false) (hraise : ∀ kind imm, i ≠ .exception kind imm) :
    Emits ⟨[], .plain⟩ (lower i) (lower i) (Leads ⟨[], .plain⟩) := by
  cases i with
  | branchCond | compareBranch | testBranch | branch | branchReg | ret | exceptionReturn => cases h
  | exception => exact absurd rfl (hraise _ _)
  | hint | barrier | sys => exact skip
  | writePstate => exact writePstate ..
  | writeSysReg => exact writeSysReg ..
  | readSysReg => exact readSysReg ..
  | literal => exact literal ..
  | access transfer size _ mode offset rn rt =>
    exact addressed rn offset mode fun hx => transferAt transfer size rt hx
  | accessIndexed => exact accessIndexed ..
  | pair isLoad _ size signed mode offset rt2 rn rt =>
    exact addressed rn offset mode fun hx => pairAt isLoad size signed rt2 rt hx
  | address => exact address ..
  | addSubImm => exact addSubImm ..
  | logicalImm => exact logicalImm ..
  | moveWide => exact moveWide ..
  | bitfield => exact bitfield ..
  | extract => exact extract ..
  | logicalReg => exact logicalReg ..
  | addSubShifted => exact addSubShifted ..
  | addSubExtended => exact addSubExtended ..
  | addSubCarry => exact addSubCarry ..
  | condCompare => exact condCompare ..
  | condSelect => exact condSelect ..
  | twoSource => exact twoSource ..
  | threeSource => exact threeSource ..

/-- Every instruction but one that raises an exception is compiled. It gives back the scratch locals
that it takes, reads none that it has not written, and ends its block at most once, whichever locals
it gets. -/
theorem lower {i : Instr} (hraise : ∀ kind imm, i ≠ .exception kind imm) :
    Emits ⟨[], .plain⟩ (lower i) (lower i) Done := by
  cases i with
  | branchCond => exact branchCond ..
  | compareBranch => exact compareBranch ..
  | testBranch => exact testBranch ..
  | branch => exact branch ..
  | branchReg link rn =>
    cases link with
    | true => exact callReg rn
    | false => exact jumpReg rn
  | ret => exact returnTo _
  | exceptionReturn => exact exceptionReturn
  | _ => exact done (straight rfl hraise) nofun

end Emits

end Dynarec.Compiler
