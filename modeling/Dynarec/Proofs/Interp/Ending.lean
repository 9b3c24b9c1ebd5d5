import Dynarec.Proofs.Interp.Bounds

/-!
# How functions end

A function ends with an error for one of three reasons: it reads or writes outside memory, the host
raises the error, or no operation returns a value. A block with an operation at its end that returns
never goes on to what follows it.
-/

namespace Dynarec.Interp

open Ir (Op Operand Ty)

variable {H : Type}

/-- The host stops with an error, leaving a machine, when it serves a request or is told of a jump
back. -/
def Services.Raises (s : Services H) (e : Halt Error) (m : Machine H) : Prop :=
  (∃ r m₀, s.request r m₀ = .error e m) ∨ ∃ m₀, s.tick m₀ = .error e m

/-- Why the operations of a function stop on a machine: with an error of memory or of the host, or
because their bound is reached. -/
inductive Services.Cause (s : Services H) : Halt Error → Machine H → Prop where
  | memory (e : Memory.Error) (m : Machine H) : Cause s (.error (.memory e)) m
  | outOfFuel (m : Machine H) : Cause s .outOfFuel m
  | raised {e : Halt Error} {m : Machine H} : s.Raises e m → Cause s e m

section
variable {s : Services H} {α β : Type} {types : Array Ty}

/-- A computation on a frame stops for one of the causes only. -/
def Caused (s : Services H) (x : Run Error (Frame H) α) : Prop :=
  ∀ f e f', x f = .error e f' → s.Cause e f'.machine

lemma caused_pure (a : α) : Caused s (pure a) := by
  intro f e f' h
  cases h

lemma Caused.bind {x : Run Error (Frame H) α} {g : α → Run Error (Frame H) β} (hx : Caused s x)
    (hg : ∀ a, Caused s (g a)) : Caused s (x >>= g) := by
  intro f e f' h
  rcases EStateM.of_bind_error h with h | ⟨a, f₁, -, h⟩
  · exact hx f e f' h
  · exact hg a f₁ e f' h

/-- Stopping for one of the causes is kept step by step. -/
abbrev Caused.congruence (s : Services H) : Run.Congruence Error (Frame H) (Frame H) where
  Rel x _ := Caused s x
  pure := caused_pure
  bind := Caused.bind

lemma load_caused (addr : UInt64) (size : AccessSize) : Caused s (load addr size) := by
  intro f e f' h
  unfold load at h
  cases hread : f.machine.mem.read addr size with
  | ok value =>
    rw [hread] at h
    cases h
  | error e =>
    rw [hread] at h
    cases h
    exact .memory _ _

lemma store_caused (addr : UInt64) (size : AccessSize) (value : UInt64) :
    Caused s (store addr size value) := by
  rintro ⟨⟨cpu, mem, host⟩, locals⟩ e f' h
  simp only [store] at h
  cases hwrite : Memory.write addr size value mem with
  | ok u mem =>
    rw [hwrite] at h
    cases h
  | error e mem =>
    rw [hwrite] at h
    cases h
    exact .memory _ _

lemma onMachine_caused {x : Run Error (Machine H) α}
    (h : ∀ m e m', x m = .error e m' → s.Raises e m') : Caused s (onMachine x) := by
  rintro ⟨m, locals⟩ e f' hf
  cases hx : x m with
  | ok a m' =>
    rw [onMachine_ok hx] at hf
    cases hf
  | error e m' =>
    rw [onMachine_error hx] at hf
    cases hf
    exact .raised (h m _ m' hx)

lemma caused_related (s : Services H) : Related (Caused.congruence s) types s s where
  read x := by
    intro f e f' h
    cases h
  write place value := by
    intro f e f' h
    cases h
  load := load_caused
  store := store_caused
  request r := onMachine_caused fun m _ _ h => .inl ⟨r, m, h⟩

lemma walk_caused (s : Services H) (types : Array Ty) (fuel : Nat)
    (x : Shape (List Op) Operand) : Caused s (x.walk (visitor s types) fuel) := by
  have htick : Caused s (visitor s types).backEdge := onMachine_caused fun m _ _ h => .inr ⟨m, h⟩
  have hfuel : Caused s (throw .outOfFuel : Run Error (Frame H) (Shape.Control × Nat)) := by
    intro f e f' h
    cases h
    exact .outOfFuel _
  have hloops : Shape.LoopsRel (Caused.congruence s) (visitor s types) (visitor s types) fuel
      fuel := fun _ _ _ hinner => Shape.iterate_rel _ hfuel htick hinner
  refine Shape.walk_rel hloops (Shape.all_of_forall (fun b => ?_) (fun c => ?_) x)
  · exact runOps_rel (caused_related s) b
  · have hread : Related (Caused.congruence s) types s s := caused_related s
    exact (hread.read c).bind fun _ => caused_pure _

/-- A function that fails does so for one of the causes, or because its walk has come to the end. -/
theorem invoke_error {fuel : Nat} {f : Ir.Function} {m m' : Machine H} {e : Halt Error}
    (h : invoke s fuel f m = .error e m') :
    s.Cause e m' ∨ ∃ frame, f.body.walk (visitor s f.locals) fuel
      ⟨m, .replicate f.locals.size 0⟩ = .ok none frame := by
  unfold invoke at h
  cases hw : f.body.walk (visitor s f.locals) fuel ⟨m, .replicate f.locals.size 0⟩ with
  | error e frame =>
    rw [hw] at h
    cases h
    exact .inl (walk_caused s f.locals fuel f.body _ _ _ hw)
  | ok r frame =>
    cases r with
    | none => exact .inr ⟨frame, rfl⟩
    | some value =>
      rw [hw] at h
      cases h

/-! ### Operations that return -/

lemma inTurn_runOps : Run.InTurn (runOp s types) (runOps s types) where
  nil := by rw [runOps]
  cons op rest := by
    rw [runOps]
    congr 1
    funext r
    cases r <;> rfl

/-- Operations run in two parts. -/
lemma runOps_append (xs ys : List Op) :
    runOps s types (xs ++ ys) = (do
      match ← runOps s types xs with
      | some value => return some value
      | none => runOps s types ys) := by
  rw [inTurn_runOps.append]
  congr 1
  funext r
  cases r <;> rfl

/-- Operations of which one returns do not come to their end. -/
lemma runOps_ne_none {ops : List Op} (h : ∃ x, .ret x ∈ ops) (f f' : Frame H) :
    runOps s types ops f ≠ .ok none f' := by
  obtain ⟨x, hx⟩ := h
  refine inTurn_runOps.ne_none (fun f f' hop => ?_) hx f f'
  rw [runOp] at hop
  cases hop

end

end Dynarec.Interp
