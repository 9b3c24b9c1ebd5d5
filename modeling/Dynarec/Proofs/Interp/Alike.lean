import Mathlib.Logic.Relation
import Dynarec.Proofs.Interp.Observe
import Dynarec.Proofs.Ir.Alike

/-!
# Running operations that are alike

Operations that differ only in their scratch locals do the same from frames on one machine, if what is read from a
scratch local is what has been written to it before. What else the locals hold does not show.
-/

namespace Dynarec.Interp

open Ir (Op Operand Ty Matching)
open Run (MatchedBy)

variable {H : Type} {noting : Memory → H → H} {s : Services H} {T T' : Array Ty} {D D₁ : Matching}
  {f f' : Frame H} {op op' : Op}

/-- Two frames on one machine, in which the matched scratch locals hold the same. -/
structure Coincide (T T' : Array Ty) (D : Matching) (f f' : Frame H) : Prop where
  machine : f'.machine = f.machine
  size : f.locals.size = T.size
  size' : f'.locals.size = T'.size
  locals : ∀ l l', D l l' → ∃ v, f.locals[l.id]? = some v ∧ f'.locals[l'.id]? = some v

/-- Nothing is matched at the start. -/
lemma coincide_start {m : Machine H} {locals locals' : Array UInt64} (hsize : locals.size = T.size)
    (hsize' : locals'.size = T'.size) : Coincide T T' (fun _ _ => False) ⟨m, locals⟩ ⟨m, locals'⟩ :=
  ⟨rfl, hsize, hsize', nofun⟩

/-- Two runs end alike: with the same value or error on one machine, and with matched locals if they go on. -/
abbrev EndsAlike (T T' : Array Ty) (D : Matching) : EStateM.Result (Halt Error) (Frame H) (Option UInt64) →
    EStateM.Result (Halt Error) (Frame H) (Option UInt64) → Prop :=
  MatchedBy (fun r g r' g' => r' = r ∧ g'.machine = g.machine ∧ (r = none → Coincide T T' D g g'))
    (fun g g' => g'.machine = g.machine) fun _ => True

namespace Coincide

/-- Operands that are alike have the same value. -/
lemma read (h : Coincide T T' D f f') {x x' : Operand} (hx : x.Alike D x') : f'.read x' = f.read x := by
  obtain ⟨m, locals⟩ := f
  obtain ⟨m', locals'⟩ := f'
  obtain ⟨hmachine, -, -, hlocals⟩ := h
  dsimp only at hmachine hlocals
  subst hmachine
  cases hx with
  | imm value => rfl
  | @place p hp =>
    cases p with
    | scratch l => exact absurd rfl (hp l)
    | _ => rfl
  | @scratch l l' hl =>
    obtain ⟨v, hv, hv'⟩ := hlocals l l' hl
    show locals'.getD l'.id 0 = locals.getD l.id 0
    rw [Array.getD_eq_getD_getElem?, Array.getD_eq_getD_getElem?, hv, hv']

/-- A value is written to places that are alike. -/
lemma write (h : Coincide T T' D f f') {dst dst' : Ir.Place} (hdst : dst.Alike T T' dst') (v : UInt64) :
    Coincide T T' (D.write dst dst') (f.write T dst v) (f'.write T' dst' v) := by
  obtain ⟨m, locals⟩ := f
  obtain ⟨m', locals'⟩ := f'
  obtain ⟨hmachine, hsize, hsize', hlocals⟩ := h
  dsimp only at hmachine hsize hsize' hlocals
  subst hmachine
  cases hdst with
  | place hp =>
    rw [Matching.write_place hp]
    cases dst with
    | scratch l => exact absurd rfl (hp l)
    | _ => exact ⟨rfl, hsize, hsize', hlocals⟩
  | @scratch l l' ty hl hl' =>
    have hlt : l.id < locals.size := hsize ▸ (Array.getElem?_eq_some_iff.1 hl).1
    have hlt' : l'.id < locals'.size := hsize' ▸ (Array.getElem?_eq_some_iff.1 hl').1
    have hmask : ∀ {U : Array Ty} {i : Nat}, U[i]? = some ty → (U.getD i .i64).mask = ty.mask := fun hi => by
      rw [Array.getD_eq_getD_getElem?, hi, Option.getD_some]
    refine ⟨rfl, Array.size_setIfInBounds.trans hsize, Array.size_setIfInBounds.trans hsize', fun a b hab => ?_⟩
    simp only [Frame.write, Array.getElem?_setIfInBounds, hmask hl, hmask hl']
    rcases hab with ⟨rfl, rfl⟩ | ⟨hne, hne', hab⟩
    · exact ⟨v &&& ty.mask, by simp [hlt], by simp [hlt']⟩
    · -- the other locals keep what they hold, for each has a number of its own
      have hid : l.id ≠ a.id := fun e => hne (by cases a; cases l; exact congrArg _ e.symm)
      have hid' : l'.id ≠ b.id := fun e => hne' (by cases b; cases l'; exact congrArg _ e.symm)
      rw [if_neg hid, if_neg hid']
      exact hlocals a b hab

end Coincide

/-- A load writes what is read from memory. -/
lemma runOp_load_ok {size : AccessSize} {dst : Ir.Place} {x : Operand} {v : UInt64}
    (h : f.machine.mem.read (f.read x) size = .ok v) :
    runOp s T (.load size dst x) f = .ok none (f.write T dst v) := by
  unfold runOp
  rw [EStateM.bind_ok (rfl : Interp.read x f = .ok (f.read x) f)]
  apply EStateM.bind_ok
  unfold Interp.load
  rw [h]

/-- A load fails as the access does, and changes nothing then. -/
lemma runOp_load_error {size : AccessSize} {dst : Ir.Place} {x : Operand} {e : Memory.Error}
    (h : f.machine.mem.read (f.read x) size = .error e) :
    runOp s T (.load size dst x) f = .error (.error (.memory e)) f := by
  unfold runOp
  rw [EStateM.bind_ok (rfl : Interp.read x f = .ok (f.read x) f)]
  apply EStateM.bind_error
  unfold Interp.load
  rw [h]

/-- A selection writes one of two values. -/
lemma runOp_select (dst : Ir.Place) (c x y : Operand) (f : Frame H) :
    runOp s T (.select dst c x y) f =
      .ok none (f.write T dst (if f.read c != 0 then f.read x else f.read y)) := by
  unfold runOp
  rw [EStateM.bind_ok (rfl : Interp.read c f = .ok (f.read c) f)]
  split <;> rfl

/-- The answer of the host to the same request is written, or the request fails. -/
lemma answer_writes {dst dst' : Ir.Place} (hm : f'.machine = f.machine) (x : Run Error (Machine H) UInt64) :
    (∃ v m, (do Interp.write T dst (← onMachine x); return none : Run Error (Frame H) (Option UInt64)) f =
        .ok none (Frame.write T ⟨m, f.locals⟩ dst v) ∧
      (do Interp.write T' dst' (← onMachine x); return none : Run Error (Frame H) (Option UInt64)) f' =
        .ok none (Frame.write T' ⟨m, f'.locals⟩ dst' v)) ∨
    ∃ e m, (do Interp.write T dst (← onMachine x); return none : Run Error (Frame H) (Option UInt64)) f =
        .error e ⟨m, f.locals⟩ ∧
      (do Interp.write T' dst' (← onMachine x); return none : Run Error (Frame H) (Option UInt64)) f' =
        .error e ⟨m, f'.locals⟩ := by
  cases hr : x f.machine with
  | ok v m =>
    have hr' : x f'.machine = .ok v m := hm ▸ hr
    exact .inl ⟨v, m, EStateM.bind_ok (onMachine_ok hr), EStateM.bind_ok (onMachine_ok hr')⟩
  | error e m =>
    have hr' : x f'.machine = .error e m := hm ▸ hr
    exact .inr ⟨e, m, EStateM.bind_error (onMachine_error hr), EStateM.bind_error (onMachine_error hr')⟩

/-- Operations that write a place each write the same value, or fail alike. -/
lemma runOp_writes {dst dst' : Ir.Place} (h : op.Writes D dst dst' op') (hf : Coincide T T' D f f') :
    (∃ v m, runOp s T op f = .ok none (Frame.write T ⟨m, f.locals⟩ dst v) ∧
      runOp s T' op' f' = .ok none (Frame.write T' ⟨m, f'.locals⟩ dst' v)) ∨
    ∃ e m, runOp s T op f = .error e ⟨m, f.locals⟩ ∧ runOp s T' op' f' = .error e ⟨m, f'.locals⟩ := by
  have hm := hf.machine
  -- what the two frames read is the same; the rest of each case is what the operation does
  cases h with
  | mov hx =>
    refine .inl ⟨_, f.machine, rfl, ?_⟩
    rw [← hf.read hx, ← hm]
    rfl
  | bin hx hy =>
    refine .inl ⟨_, f.machine, rfl, ?_⟩
    rw [← hf.read hx, ← hf.read hy, ← hm]
    rfl
  | cmp hx hy =>
    refine .inl ⟨_, f.machine, rfl, ?_⟩
    rw [← hf.read hx, ← hf.read hy, ← hm]
    rfl
  | select hc hx hy =>
    refine .inl ⟨_, f.machine, runOp_select .., ?_⟩
    rw [runOp_select, ← hf.read hc, ← hf.read hx, ← hf.read hy, ← hm]
  | extend hx =>
    refine .inl ⟨_, f.machine, rfl, ?_⟩
    rw [← hf.read hx, ← hm]
    rfl
  | @load size x x' hx =>
    have hread : f'.machine.mem.read (f'.read x') size = f.machine.mem.read (f.read x) size := by
      rw [hf.read hx, hm]
    cases hr : f.machine.mem.read (f.read x) size with
    | ok v => exact .inl ⟨v, f.machine, runOp_load_ok hr, hm ▸ runOp_load_ok (hread.trans hr)⟩
    | error e => exact .inr ⟨_, f.machine, runOp_load_error hr, hm ▸ runOp_load_error (hread.trans hr)⟩
  | @call slot =>
    unfold runOp
    exact answer_writes hm (s.request (.call slot))
  | @jump x x' hx =>
    unfold runOp
    rw [EStateM.bind_ok (rfl : Interp.read x f = .ok (f.read x) f),
      EStateM.bind_ok (rfl : Interp.read x' f' = .ok (f'.read x') f'), hf.read hx]
    exact answer_writes hm (s.request (.jump (f.read x)))

/-- An operation that writes a place is not observed. -/
lemma observeOp_writes {dst dst' : Ir.Place} (h : op.Writes D dst dst' op') :
    observeOp noting s T op = runOp s T op ∧ observeOp noting s T' op' = runOp s T' op' := by
  cases h <;> exact ⟨by simp only [observeOp], by simp only [observeOp]⟩

/-- What the operation does that returns unless a call came back to where it should. -/
lemma observeOp_leave (c x : Operand) (f : Frame H) :
    observeOp noting s T (.branch c [.ret x] []) f = .ok (if f.read c != 0 then some (f.read x) else none) f := by
  rw [observeOp, EStateM.bind_ok (rfl : Interp.read c f = .ok (f.read c) f)]
  split
  · simp only [observeOps, observeOp, runOp]
    rfl
  · simp only [observeOps]
    rfl

/-- Operations that are alike end alike. -/
lemma observeOp_alike (h : op.Alike T T' D op' D₁) (hf : Coincide T T' D f f') :
    EndsAlike T T' D₁ (observeOp noting s T op f) (observeOp noting s T' op' f') := by
  cases h with
  | write hw hdst =>
    obtain ⟨hop, hop'⟩ : observeOp noting s T _ = runOp s T _ ∧ observeOp noting s T' _ = runOp s T' _ :=
      observeOp_writes hw
    rw [hop, hop']
    rcases runOp_writes (s := s) hw hf with ⟨v, m, h, h'⟩ | ⟨e, m, h, h'⟩
    · rw [h, h']
      have hm : Coincide T T' D ⟨m, f.locals⟩ ⟨m, f'.locals⟩ := ⟨rfl, hf.size, hf.size', hf.locals⟩
      have hwrite := hm.write hdst v
      exact ⟨rfl, hwrite.machine, fun _ => hwrite⟩
    · rw [h, h']
      exact ⟨rfl, trivial, rfl⟩
  | store ha hx =>
    rw [observeOp_store, observeOp_store, hf.read ha, hf.read hx, hf.machine]
    cases Memory.write (f.read _) _ (f.read _) f.machine.mem with
    | ok u mem => exact ⟨rfl, rfl, fun _ => ⟨rfl, hf.size, hf.size', hf.locals⟩⟩
    | error e mem => exact ⟨rfl, trivial, rfl⟩
  | leave hc hx =>
    rw [observeOp_leave, observeOp_leave, hf.read hc, hf.read hx]
    exact ⟨rfl, hf.machine, fun _ => hf⟩
  | ret hx =>
    simp only [observeOp, runOp]
    exact ⟨congrArg some (hf.read hx), hf.machine, fun _ => hf⟩

/-- Lists of operations that are alike end alike. -/
theorem observeOps_alike {xs xs' : List Op} (h : Op.AllAlike T T' D xs xs' D₁) {f f' : Frame H}
    (hf : Coincide T T' D f f') :
    EndsAlike T T' D₁ (observeOps noting s T xs f) (observeOps noting s T' xs' f') := by
  induction h generalizing f f' with
  | nil =>
    simp only [observeOps]
    exact ⟨rfl, hf.machine, fun _ => hf⟩
  | @cons D D₁ D₂ op op' ops ops' hop _ ih =>
    have hend : EndsAlike T T' D₁ (observeOp noting s T op f) (observeOp noting s T' op' f') :=
      observeOp_alike hop hf
    simp only [observeOps]
    cases hrun : observeOp noting s T op f with
    | error e g =>
      rw [EStateM.bind_error hrun]
      rw [hrun] at hend
      cases hrun' : observeOp noting s T' op' f' with
      | error e' g' =>
        rw [EStateM.bind_error hrun']
        rwa [hrun'] at hend
      | ok r' g' =>
        rw [hrun'] at hend
        exact hend.elim
    | ok r g =>
      rw [EStateM.bind_ok hrun]
      rw [hrun] at hend
      cases hrun' : observeOp noting s T' op' f' with
      | error e' g' =>
        rw [hrun'] at hend
        exact hend.elim
      | ok r' g' =>
        rw [EStateM.bind_ok hrun']
        rw [hrun'] at hend
        obtain ⟨rfl, hmachine, hgo⟩ := hend
        cases r' with
        | some value => exact ⟨rfl, hmachine, fun hnone => absurd hnone (Option.some_ne_none value)⟩
        | none => exact ih (hgo rfl)

/-! ### Plain operations -/

/-- A frame of a host that keeps nothing. -/
def Frame.bare (f : Frame H) : Frame Unit := ⟨⟨f.machine.cpu, f.machine.mem, ()⟩, f.locals⟩

lemma bare_read (f : Frame H) (x : Operand) : f.bare.read x = f.read x := by
  cases x with
  | imm value => rfl
  | place p => cases p <;> rfl

lemma bare_write (f : Frame H) (dst : Ir.Place) (v : UInt64) : (f.write T dst v).bare = f.bare.write T dst v := by
  cases dst <;> rfl

/-- What a plain operation does that does not fail: it writes a place, or it stores. A host that keeps nothing sees
the same. -/
inductive PlainStep (noting : Memory → H → H) (T : Array Ty) (f : Frame H) : Frame H → Prop where
  | write (dst : Ir.Place) (v : UInt64) : PlainStep noting T f (f.write T dst v)
  | store {addr value : UInt64} {size : AccessSize} {mem : Memory} :
    Memory.write addr size value f.machine.mem = .ok () mem →
    PlainStep noting T f ⟨⟨f.machine.cpu, mem, noting mem f.machine.host⟩, f.locals⟩

lemma observeOp_plain (h : op.isPlain) {r : Option UInt64} {g : Frame H} (s' : Services Unit)
    (hrun : observeOp noting s T op f = .ok r g) :
    r = none ∧ PlainStep noting T f g ∧ runOp s' T op f.bare = .ok none g.bare := by
  cases op with
  | call | jump | branch | ret => cases h
  | mov width dst x =>
    cases hrun
    exact ⟨rfl, .write _ _, by rw [bare_write, ← bare_read f x]; rfl⟩
  | bin o width dst x y =>
    cases hrun
    exact ⟨rfl, .write _ _, by rw [bare_write, ← bare_read f x, ← bare_read f y]; rfl⟩
  | cmp o width dst x y =>
    cases hrun
    exact ⟨rfl, .write _ _, by rw [bare_write, ← bare_read f x, ← bare_read f y]; rfl⟩
  | extend bits signed dst x =>
    cases hrun
    exact ⟨rfl, .write _ _, by rw [bare_write, ← bare_read f x]; rfl⟩
  | select dst c x y =>
    simp only [observeOp, runOp_select] at hrun
    cases hrun
    exact ⟨rfl, .write _ _, by rw [runOp_select, bare_write, bare_read, bare_read, bare_read]⟩
  | load size dst x =>
    simp only [observeOp] at hrun
    cases hread : f.machine.mem.read (f.read x) size with
    | error e =>
      rw [runOp_load_error hread] at hrun
      cases hrun
    | ok v =>
      rw [runOp_load_ok hread] at hrun
      cases hrun
      have hread' : f.bare.machine.mem.read (f.bare.read x) size = .ok v := by
        rw [bare_read]
        exact hread
      exact ⟨rfl, .write _ _, by rw [runOp_load_ok hread', bare_write]⟩
  | store size addr value =>
    have hbare := observeOp_store (fun _ h => h) s' T size addr value f.bare
    rw [observeOp_nothing, bare_read, bare_read] at hbare
    rw [observeOp_store] at hrun
    cases hwrite : Memory.write (f.read addr) size (f.read value) f.machine.mem with
    | error e mem =>
      rw [hwrite] at hrun
      cases hrun
    | ok u mem =>
      rw [hwrite] at hrun
      cases hrun
      refine ⟨rfl, .store hwrite, hbare.trans ?_⟩
      simp only [Frame.bare, hwrite]

/-- Plain operations that do not fail come to their end, one step after the other. -/
theorem observeOps_plain {ops : List Op} (h : ops.all Op.isPlain) {r : Option UInt64} {f g : Frame H}
    (s' : Services Unit) (hrun : observeOps noting s T ops f = .ok r g) :
    r = none ∧ Relation.ReflTransGen (PlainStep noting T) f g ∧ runOps s' T ops f.bare = .ok none g.bare := by
  induction ops generalizing f with
  | nil =>
    cases hrun
    exact ⟨rfl, .refl, rfl⟩
  | cons op rest ih =>
    rw [List.all_cons, Bool.and_eq_true] at h
    rw [observeOps] at hrun
    obtain ⟨r₁, f₁, hop, hrest⟩ := EStateM.of_bind_ok hrun
    obtain ⟨rfl, hstep, hbare⟩ := observeOp_plain h.1 s' hop
    obtain ⟨rfl, hsteps, hbares⟩ := ih h.2 hrest
    refine ⟨rfl, .head hstep hsteps, ?_⟩
    rw [runOps, EStateM.bind_ok hbare]
    exact hbares

end Dynarec.Interp
