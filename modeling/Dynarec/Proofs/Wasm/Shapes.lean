import Dynarec.Proofs.Wasm.Operations

/-!
# Simulation of shapes

The code of a shape does to an activation what the shape does to the frame that it tracks, with the same bound
for its loops. A jump back to the start of a loop calls the host before it leaves the constructs in between,
where the shape's run leaves them first; nothing happens there in between.
-/

namespace Dynarec.Wasm

open Ir (Op Place Operand)
open Interp (Frame)

variable {H : Type} {env : Environment Error H} {c : Context} {r d fuel : Nat} {image : UInt32}
  {services : Interp.Services H} {f : Frame H} {a : Activation H} {frame : Enclosing} {frames : List Enclosing}

/-- Where a jump leads to: the depth of the innermost construct of a label. -/
abbrev depthOf (frames : List Enclosing) (label : Nat) : Option Nat :=
  frames.findIdx? (·.label == some label)

/-- A jump leads back to the start of a loop. -/
def restarts (frames : List Enclosing) : Shape.Control → Bool
  | .jump label => (frames.find? (·.label == some label)).any (·.isLoop)
  | _ => false

/-- Let the host count a jump, if it leads back to the start of a loop. -/
def charge (services : Interp.Services H) (frames : List Enclosing) (left : Shape.Control) :
    Run Error (Frame H) Unit :=
  if restarts frames left then Interp.onMachine services.tick else pure ()

/-- Let the host count a jump where it is made. -/
def settle (services : Interp.Services H) (frames : List Enclosing) (left : Shape.Control × Nat) :
    Run Error (Frame H) (Shape.Control × Nat) := do
  charge services frames left.1
  return left

/-- How the code of a shape is left within some constructs: a jump is a branch to its construct. -/
def Leaves (frames : List Enclosing) : Shape.Control → Control → Prop
  | .next, left => left = .next []
  | .jump label, left => ∃ depth, depthOf frames label = some depth ∧ left = .br depth []
  | .ret value, left => left = .ret [.i64 value]

/-- How a construct that is left as its inside is leaves a jump to it behind. -/
def afterwards (label : Option Nat) : Shape.Control → Shape.Control
  | .jump l => if label = some l then .next else .jump l
  | left => left

/-- A shape and its code end alike. -/
abbrev ShapeEnds (c : Context) (r : Nat) (image : UInt32) (frames : List Enclosing) :
    EStateM.Result (Halt Error) (Frame H) (Shape.Control × Nat) →
      EStateM.Result (Halt (Trap Error)) (Activation H) Control → Prop :=
  Simulated (fun o f left a => Leaves frames o.1 left ∧ o.2 < 2 ^ 32 ∧ Tracks c r image f o.2 a)
    (HeldBelow r image)

lemma depthOf_cons_self {label : Nat} (h : frame.label = some label) :
    depthOf (frame :: frames) label = some 0 := by
  rw [depthOf, List.findIdx?_cons, if_pos (beq_iff_eq.2 h)]

lemma depthOf_cons_of_ne {label : Nat} (h : frame.label ≠ some label) :
    depthOf (frame :: frames) label = (depthOf frames label).map (· + 1) := by
  rw [depthOf, List.findIdx?_cons, if_neg (by rwa [beq_iff_eq])]

lemma restarts_cons_self {label : Nat} (h : frame.label = some label) :
    restarts (frame :: frames) (.jump label) = frame.isLoop := by
  rw [restarts, List.find?_cons, beq_iff_eq.2 h, Option.any_some]

lemma restarts_cons_of_ne {label : Nat} (h : frame.label ≠ some label) :
    restarts (frame :: frames) (.jump label) = restarts frames (.jump label) := by
  rw [restarts, List.find?_cons, beq_eq_false_iff_ne.2 h, restarts]

lemma afterwards_self {label : Nat} (h : frame.label = some label) :
    afterwards frame.label (.jump label) = .next := if_pos h

lemma afterwards_of_ne {label : Nat} (h : frame.label ≠ some label) :
    afterwards frame.label (.jump label) = .jump label := if_neg h

lemma ite_eq_afterwards (label : Nat) (ctrl : Shape.Control) :
    (if ctrl = .jump label then .next else ctrl) = afterwards (some label) ctrl := by
  cases ctrl with
  | next => rfl
  | ret value => rfl
  | jump l => simp [afterwards, eq_comm]

/-- A construct is left as its inside is, and after a jump to it at its end. -/
lemma Leaves.enclosed {left : Control} : {ctrl : Shape.Control} → Leaves (frame :: frames) ctrl left →
    Leaves frames (afterwards frame.label ctrl) (left.leave 0 [])
  | .next, h => by
    cases h
    rfl
  | .ret value, h => by
    cases h
    rfl
  | .jump label, ⟨depth, hdepth, hleft⟩ => by
    cases hleft
    by_cases hlabel : frame.label = some label
    · rw [depthOf_cons_self hlabel] at hdepth
      cases hdepth
      rw [afterwards_self hlabel]
      rfl
    · rw [depthOf_cons_of_ne hlabel] at hdepth
      obtain ⟨outer, houter, rfl⟩ := Option.map_eq_some_iff.1 hdepth
      rw [afterwards_of_ne hlabel]
      exact ⟨outer, houter, rfl⟩

/-- A jump out of a construct restarts a loop around it or none. -/
lemma restarts_afterwards (h : frame.isLoop = false) (ctrl : Shape.Control) :
    restarts frames (afterwards frame.label ctrl) = restarts (frame :: frames) ctrl := by
  cases ctrl with
  | next => rfl
  | ret value => rfl
  | jump label =>
    by_cases hlabel : frame.label = some label
    · rw [afterwards_self hlabel, restarts_cons_self hlabel, h]
      rfl
    · rw [afterwards_of_ne hlabel, restarts_cons_of_ne hlabel]

/-- The host counts the same jumps within a construct that is no loop and around it. -/
lemma settle_afterwards (h : frame.isLoop = false) (left : Shape.Control × Nat) :
    settle services frames (afterwards frame.label left.1, left.2) = (do
      let (ctrl, d) ← settle services (frame :: frames) left
      return (afterwards frame.label ctrl, d)) := by
  simp only [settle, charge, restarts_afterwards h, bind_assoc, pure_bind]

section
variable {x : Run Error (Frame H) (Shape.Control × Nat)} {y : Run (Trap Error) (Activation H) Control}

/-- What encloses the code of a shape, where it is no loop. -/
lemma ShapeEnds.enclosed (hframe : frame.isLoop = false)
    (h : ShapeEnds c r image (frame :: frames) ((x >>= settle services (frame :: frames)) f) (y a)) :
    ShapeEnds c r image frames
      ((do
        let (ctrl, d) ← x
        settle services frames (afterwards frame.label ctrl, d)) f)
      ((do return (← y).leave 0 []) a) := by
  have hx : (do
      let (ctrl, d) ← x
      settle services frames (afterwards frame.label ctrl, d)) = (x >>= settle services (frame :: frames)) >>=
        fun left => pure (afterwards frame.label left.1, left.2) := by
    rw [bind_assoc]
    congr 1
    funext left
    exact settle_afterwards hframe left
  rw [hx]
  apply h.bind
  rintro o f₁ left a₁ ⟨hleft, hd, h₁⟩
  exact ⟨hleft.enclosed, hd, h₁⟩

/-! ### Loops -/

section
variable {label : Nat}

/-- A jump that does not restart a loop is counted where the loop is left. -/
lemma settle_of_ne {left : Shape.Control × Nat} (h : left.1 ≠ .jump label) (isLoop : Bool) :
    settle services (⟨some label, isLoop⟩ :: frames) left = settle services frames left := by
  have hrestarts : restarts (⟨some label, isLoop⟩ :: frames) left.1 = restarts frames left.1 := by
    cases hctrl : left.1 with
    | next => rfl
    | ret value => rfl
    | jump l =>
      rw [hctrl] at h
      exact restarts_cons_of_ne fun hl => h (congrArg _ (Option.some.inj hl.symm))
  rw [settle, settle, charge, charge, hrestarts]

/-- One round of a loop counts a jump back to its start before it leaves its inside. -/
lemma iterate_settle (inner : Nat → Run Error (Frame H) (Shape.Control × Nat)) (n d : Nat) :
    Shape.iterate (Interp.onMachine services.tick) label inner (n + 1) d >>= settle services frames =
      (inner d >>= settle services (⟨some label, true⟩ :: frames)) >>= fun left =>
        if left.1 = .jump label then
          Shape.iterate (Interp.onMachine services.tick) label inner n left.2 >>= settle services frames
        else return left := by
  rw [Shape.iterate, bind_assoc, bind_assoc]
  congr 1
  funext left
  obtain ⟨ctrl, d'⟩ := left
  by_cases hctrl : ctrl = .jump label
  · subst hctrl
    have hrestarts : restarts (⟨some label, true⟩ :: frames) (.jump label) = true := restarts_cons_self rfl
    simp only [settle, charge, hrestarts, if_true, bind_assoc, pure_bind]
  · simp only [if_neg hctrl, pure_bind]
    rw [settle_of_ne hctrl true, settle, bind_assoc]
    simp only [pure_bind, if_neg hctrl]

/-- One round of the code of a loop. -/
lemma again_leave (y : Run (Trap Error) (Activation H) Control) (n : Nat) :
    (do return (← Instruction.again y (n + 1)).leave 0 []) = (do
      match ← y with
      | .br 0 _ => (do return (← Instruction.again y n).leave 0 [])
      | left => return left.leave 0 []) := by
  rw [Instruction.again, bind_assoc]
  congr 1
  funext left
  cases left with
  | next s => rfl
  | ret s => rfl
  | br depth s => cases depth <;> rfl

/-- A loop ends as its code does. -/
lemma loop_ends {inner : Nat → Run Error (Frame H) (Shape.Control × Nat)}
    (hinner : ∀ (f : Frame H) (d : Nat) (a : Activation H), d < 2 ^ 32 → Tracks c r image f d a →
      ShapeEnds c r image (⟨some label, true⟩ :: frames)
        ((inner d >>= settle services (⟨some label, true⟩ :: frames)) f) (y a)) (n : Nat)
    {f : Frame H} {d : Nat} {a : Activation H} (hd : d < 2 ^ 32) (h : Tracks c r image f d a) :
    ShapeEnds c r image frames
      ((Shape.iterate (Interp.onMachine services.tick) label inner n d >>= settle services frames) f)
      ((do return (← Instruction.again y n).leave 0 []) a) := by
  induction n generalizing f d a with
  | zero => exact h.holds
  | succ n ih =>
    rw [iterate_settle, again_leave]
    apply (hinner f d a hd h).bind
    rintro ⟨ctrl, d'⟩ f₁ left a₁ ⟨hleft, hd', h₁⟩
    by_cases hctrl : ctrl = .jump label
    · subst hctrl
      obtain ⟨depth, hdepth, rfl⟩ := hleft
      rw [depthOf_cons_self rfl] at hdepth
      cases hdepth
      rw [if_pos rfl]
      exact ih hd' h₁
    · have henclosed := hleft.enclosed
      rw [if_neg hctrl]
      cases ctrl with
      | next =>
        cases hleft
        exact ⟨henclosed, hd', h₁⟩
      | ret value =>
        cases hleft
        exact ⟨henclosed, hd', h₁⟩
      | jump l =>
        have hne : some label ≠ some l := fun hl => hctrl (congrArg _ (Option.some.inj hl.symm))
        rw [afterwards_of_ne hne] at henclosed
        obtain ⟨depth, hdepth, rfl⟩ := hleft
        rw [depthOf_cons_of_ne hne] at hdepth
        obtain ⟨outer, -, rfl⟩ := Option.map_eq_some_iff.1 hdepth
        exact ⟨henclosed, hd', h₁⟩

end

end

/-! ### Conditionals -/

/-- The arm of a conditional, which no jump leads to. -/
abbrev arm : Enclosing := ⟨none, false⟩

/-- What encloses the code of an arm. -/
lemma ShapeEnds.arm {x : Run Error (Frame H) (Shape.Control × Nat)}
    {y : Run (Trap Error) (Activation H) Control}
    (h : ShapeEnds c r image (arm :: frames) ((x >>= settle services (arm :: frames)) f) (y a)) :
    ShapeEnds c r image frames ((x >>= settle services frames) f) ((do return (← y).leave 0 []) a) := by
  have hnone : ∀ ctrl, afterwards none ctrl = ctrl := by
    intro ctrl
    cases ctrl <;> rfl
  have henclosed := h.enclosed rfl
  simp only [hnone] at henclosed
  exact henclosed

section
variable {x y : Run Error (Frame H) (Shape.Control × Nat)} {test is js : List Instruction} {p : Bool}

lemma ifElse_ends (htest : Steps env test [] a [truth p] a)
    (hx : ShapeEnds c r image (arm :: frames) ((x >>= settle services (arm :: frames)) f)
      (Instruction.execAll env fuel is [] a))
    (hy : ShapeEnds c r image (arm :: frames) ((y >>= settle services (arm :: frames)) f)
      (Instruction.execAll env fuel js [] a)) :
    ShapeEnds c r image frames (((if p then x else y) >>= settle services frames) f)
      (Instruction.execAll env fuel (test ++ [.ifElse false is js]) [] a) := by
  rw [htest.execAll_append, Instruction.execAll_single, Instruction.exec_ifElse]
  cases p with
  | true => exact hx.arm
  | false => exact hy.arm

lemma ifThen_ends (htest : Steps env test [] a [truth p] a) (hd : d < 2 ^ 32) (h : Tracks c r image f d a)
    (hx : ShapeEnds c r image (arm :: frames) ((x >>= settle services (arm :: frames)) f)
      (Instruction.execAll env fuel is [] a)) :
    ShapeEnds c r image frames (((if p then x else return (.next, d)) >>= settle services frames) f)
      (Instruction.execAll env fuel (test ++ [.ifThen is]) [] a) := by
  rw [htest.execAll_append, Instruction.execAll_single, Instruction.exec_ifThen]
  cases p with
  | true => exact hx.arm
  | false => exact ⟨rfl, hd, h⟩

end

/-- Which arm a test selects. -/
def selects (f : Frame H) (d : Nat) : Test Operand → Bool
  | .cond x => f.read x != 0
  | .dispatchIs id => d == id

lemma Tracks.test (h : Tracks c r image f d a) (hd : d < 2 ^ 32) {t : Test Operand}
    (hcond : ∀ x, t = .cond x → x.Declared c.types.size) (hid : ∀ id, t = .dispatchIs id → id < 2 ^ 32) :
    Steps env (Codegen.test c t) [] a [truth (selects f d t)] a := by
  cases t with
  | cond x => exact h.truthy env [] (hcond x rfl)
  | dispatchIs id =>
    have hlt := hid id rfl
    have heq : RelOp.holds .eq (UInt32.ofNat d).toBitVec (UInt32.ofNat id).toBitVec = (d == id) := by
      rw [RelOp.holds, Bool.eq_iff_iff, beq_iff_eq, beq_iff_eq, UInt32.toBitVec_inj]
      constructor
      · intro hofNat
        rw [← UInt32.toNat_ofNat_of_lt' hd, ← UInt32.toNat_ofNat_of_lt' hlt, hofNat]
      · rintro rfl
        rfl
    rw [selects, ← heq]
    exact (Steps.localGet h.dispatch).cons (Steps.i32Const.cons (Steps.rel (w := .w32)))

/-- A conditional runs the arm that its test selects. -/
lemma run_cond {α : Type} (services : Interp.Services H) (types : Array Ir.Ty) (t : Test Operand)
    (yes no : Shape (List Op) Operand) (d : Nat) (f : Frame H)
    (k : Shape.Control × Nat → Run Error (Frame H) α) :
    ((Shape.cond t yes no).run (Interp.visitor services types) fuel d >>= k) f =
      ((if selects f d t then yes.run (Interp.visitor services types) fuel d
        else no.run (Interp.visitor services types) fuel d) >>= k) f := by
  cases t with
  | cond x =>
    rw [Shape.run, bind_assoc]
    exact EStateM.bind_ok rfl
  | dispatchIs id =>
    rw [Shape.run]
    by_cases hd : d = id
    · rw [if_pos hd, selects, if_pos (beq_iff_eq.2 hd)]
    · rw [if_neg hd, selects, if_neg (by rwa [beq_iff_eq])]

/-! ### Jumps -/

/-- The construct of a jump is a loop when the jump restarts it. -/
lemma restarts_eq {label depth : Nat} (h : depthOf frames label = some depth) :
    restarts frames (.jump label) = (frames[depth]?.map (·.isLoop)).getD false := by
  induction frames generalizing depth with
  | nil => cases h
  | cons frame frames ih =>
    by_cases hlabel : frame.label = some label
    · rw [depthOf_cons_self hlabel] at h
      cases h
      rw [restarts_cons_self hlabel]
      rfl
    · rw [depthOf_cons_of_ne hlabel] at h
      obtain ⟨outer, houter, rfl⟩ := Option.map_eq_some_iff.1 h
      rw [restarts_cons_of_ne hlabel, ih houter, List.getElem?_cons_succ]

/-- A jump is a branch to its construct, which a loop's host counts before. -/
lemma jump_ends (hl : Linked c r image services env) {label : Nat} {code : List Instruction}
    (htick : restarts frames (.jump label) = true → .tick ∈ c.imports)
    (hcode : Codegen.jump c frames label = .ok code) (hd : d < 2 ^ 32) (h : Tracks c r image f d a) :
    ShapeEnds c r image frames (settle services frames (.jump label, d) f)
      (Instruction.execAll env fuel code [] a) := by
  unfold Codegen.jump at hcode
  split at hcode
  · cases hcode
  next depth hdepth =>
    have hbr (f : Frame H) (a : Activation H) (h : Tracks c r image f d a) : ShapeEnds c r image frames
        (.ok (.jump label, d) f) (Instruction.execAll env fuel [.br depth] [] a) :=
      ⟨⟨depth, hdepth, rfl⟩, hd, h⟩
    rw [← restarts_eq hdepth] at hcode
    cases hrestarts : restarts frames (.jump label) with
    | false =>
      have hcode : code = [.br depth] := by
        rw [hrestarts] at hcode
        cases hcode
        split <;> rfl
      rw [hcode, settle, charge, hrestarts]
      exact hbr f a h
    | true =>
      obtain ⟨index, hindex⟩ := Codegen.exists_importIndex (htick hrestarts)
      have hcode : code = [.localGet Context.imageLocal] ++ .call index :: [.br depth] := by
        rw [hrestarts] at hcode
        unfold Context.importIndex at hindex
        split at hindex
        next found hfound =>
          cases hindex
          rw [hfound] at hcode
          cases hcode
          rfl
        · cases hindex
      have harg : Steps env [.localGet Context.imageLocal] [] a [.i32 image] a := .localGet h.param
      have hcall := harg.execAll_append fuel (.call index :: [.br depth])
      simp only [Instruction.execAll_call (hl.getElem?_imports hindex), callImport, bind_assoc,
        pure_bind] at hcall
      rw [hcode, hcall, settle, charge, hrestarts, if_pos rfl]
      apply (h.served (hl.serves.tick h.holds)).bind
      rintro _ f₁ _ a₁ ⟨-, h₁⟩
      exact hbr f₁ a₁ h₁

/-! ### Shapes -/

/-- The numbers in the operations of a shape and the values of its dispatch variable are such as their fields
can have. -/
structure Encoded (x : Shape (List Op) Operand) : Prop where
  ops (os : List Op) (o : Op) : (Shape.body os).Within x → o.Within os → o.Encoded
  setDispatch (id : Nat) : (Shape.setDispatch id).Within x → id < 2 ^ 32
  dispatchIs (id : Nat) (yes no : Shape (List Op) Operand) :
    (Shape.cond (.dispatchIs id) yes no).Within x → id < 2 ^ 32

/-- The host counts the jumps back to the loops in a shape and around it. -/
structure Counted (c : Context) (frames : List Enclosing) (x : Shape (List Op) Operand) : Prop where
  around (label : Nat) : restarts frames (.jump label) = true → .tick ∈ c.imports
  within (label : Nat) (inner : Shape (List Op) Operand) :
    (Shape.loop label inner).Within x → .tick ∈ c.imports

section
variable {x z : Shape (List Op) Operand}

lemma Encoded.of_within (h : Encoded x) (hz : ∀ {u : Shape (List Op) Operand}, u.Within z → u.Within x) :
    Encoded z where
  ops os o hos := h.ops os o (hz hos)
  setDispatch id hid := h.setDispatch id (hz hid)
  dispatchIs id yes no hid := h.dispatchIs id yes no (hz hid)

/-- Without a dispatch variable the operations are all there is. -/
lemma Encoded.of_usesDispatch (h : x.usesDispatch = false)
    (hops : ∀ (os : List Op) (o : Op), (Shape.body os).Within x → o.Within os → o.Encoded) : Encoded x where
  ops := hops
  setDispatch id hid := by
    cases h.symm.trans (Shape.usesDispatch_of_within hid rfl)
  dispatchIs id yes no hid := by
    cases h.symm.trans (Shape.usesDispatch_of_within hid rfl)

lemma Counted.of_within (h : Counted c frames x)
    (hz : ∀ {u : Shape (List Op) Operand}, u.Within z → u.Within x) : Counted c frames z where
  around := h.around
  within label inner hloop := h.within label inner (hz hloop)

/-- Within one more construct. -/
lemma Counted.enter (h : Counted c frames x) (hframe : frame.isLoop = true → .tick ∈ c.imports) :
    Counted c (frame :: frames) x where
  around label hrestarts := by
    by_cases hlabel : frame.label = some label
    · exact hframe (restarts_cons_self hlabel ▸ hrestarts)
    · exact h.around label (restarts_cons_of_ne hlabel ▸ hrestarts)
  within := h.within

end

/-- Shapes in order are counted one after the other. -/
lemma runList_settle (v : Shape.Visitor (List Op) Operand Error (Frame H)) (x : Shape (List Op) Operand)
    (rest : List (Shape (List Op) Operand)) (d : Nat) :
    Shape.runList v fuel (x :: rest) d >>= settle services frames =
      (x.run v fuel d >>= settle services frames) >>= fun left =>
        if left.1 = .next then Shape.runList v fuel rest left.2 >>= settle services frames
        else return left := by
  rw [Shape.runList, bind_assoc, bind_assoc]
  congr 1
  funext left
  obtain ⟨ctrl, d'⟩ := left
  cases ctrl with
  | next => rfl
  | ret value => rfl
  | jump label => simp [settle]

/-- The body of a shape. -/
lemma body_ends (hl : Linked c r image services env) {os : List Op} {code : List Instruction}
    (hos : Op.AllDeclared c.types.size os) (hin : ∀ o : Op, o.Within os → o.Encoded)
    (hcode : Codegen.ops c os = .ok code) (hd : d < 2 ^ 32) (h : Tracks c r image f d a) :
    ShapeEnds c r image frames
      (((Shape.body os).run (Interp.visitor services c.types) fuel d >>= settle services frames) f)
      (Instruction.execAll env fuel code [] a) := by
  have hbody : (Shape.body os).run (Interp.visitor services c.types) fuel d >>= settle services frames =
      Interp.runOps services c.types os >>= fun o =>
        pure (o.elim .next .ret, d) := by
    rw [Shape.run, bind_assoc]
    congr 1
    funext o
    cases o <;> rfl
  have hends := ops_ends hl fuel hos hin hcode h
  rw [hbody, ← bind_pure (Instruction.execAll env fuel code [])]
  apply hends.bind
  rintro o f₁ left a₁ ⟨hleft, h₁⟩
  cases o <;> exact ⟨hleft, hd, h₁⟩

mutual

/-- The code of a shape does what the shape does. -/
lemma shape_ends (hl : Linked c r image services env) (fuel : Nat) : {x : Shape (List Op) Operand} →
    {frames : List Enclosing} → {code : List Instruction} → {f : Frame H} → {d : Nat} → {a : Activation H} →
    x.All (Op.AllDeclared c.types.size) (Operand.Declared c.types.size) → Encoded x → Counted c frames x →
    Codegen.shape c frames x = .ok code → d < 2 ^ 32 → Tracks c r image f d a →
    ShapeEnds c r image frames ((x.run (Interp.visitor services c.types) fuel d >>= settle services frames) f)
      (Instruction.execAll env fuel code [] a)
  | .seq items, frames, code, f, d, a, hx, hin, hcount, hcode, hd, h => by
    rw [Shape.All] at hx
    rw [Codegen.shape] at hcode
    rw [Shape.run]
    exact shapes_ends hl fuel hx (fun y hy => hin.of_within (.seq hy)) (fun y hy => hcount.of_within (.seq hy))
      hcode hd h
  | .body os, frames, code, f, d, a, hx, hin, _, hcode, hd, h => by
    rw [Shape.All] at hx
    rw [Codegen.shape] at hcode
    exact body_ends hl hx (fun o => hin.ops os o .self) hcode hd h
  | .block label inner, frames, code, f, d, a, hx, hin, hcount, hcode, hd, h => by
    rw [Shape.All] at hx
    obtain ⟨inner', hinner, rfl⟩ := Codegen.block_eq_ok hcode
    have hcounted : Counted c (⟨some label, false⟩ :: frames) inner := (hcount.of_within .block).enter nofun
    have henclosed := (shape_ends hl fuel hx (hin.of_within .block) hcounted hinner hd h).enclosed rfl
    rw [Shape.run, Instruction.execAll_single, Instruction.exec, bind_assoc]
    simp only [← ite_eq_afterwards] at henclosed
    simp only [pure_bind]
    exact henclosed
  | .loop label inner, frames, code, f, d, a, hx, hin, hcount, hcode, hd, h => by
    rw [Shape.All] at hx
    obtain ⟨inner', hinner, rfl⟩ := Codegen.loop_eq_ok hcode
    rw [Shape.run, Instruction.execAll_single, Instruction.exec]
    exact loop_ends (fun f d a hd h => shape_ends hl fuel hx (hin.of_within .loop)
      ((hcount.of_within .loop).enter fun _ => hcount.within label inner .self) hinner hd h) fuel hd h
  | .cond t yes no, frames, code, f, d, a, hx, hin, hcount, hcode, hd, h => by
    obtain ⟨ht, hyes, hno⟩ := hx.of_cond
    have hid : ∀ id, t = .dispatchIs id → id < 2 ^ 32 := by
      rintro id rfl
      exact hin.dispatchIs id yes no .self
    have htest : Steps env (Codegen.test c t) [] a [truth (selects f d t)] a := h.test hd ht hid
    have hcounted : ∀ {z}, Counted c frames z → Counted c (arm :: frames) z := fun hz => hz.enter nofun
    obtain ⟨yes', hyes', hno'⟩ := Codegen.cond_eq_ok hcode
    have ihyes := shape_ends hl fuel hyes (hin.of_within .ifTrue) (hcounted (hcount.of_within .ifTrue)) hyes' hd
      h
    rw [run_cond]
    rcases hno' with ⟨rfl, rfl⟩ | ⟨no', hno', rfl⟩
    · exact ifThen_ends htest hd h ihyes
    · exact ifElse_ends htest ihyes (shape_ends hl fuel hno (hin.of_within .ifFalse)
        (hcounted (hcount.of_within .ifFalse)) hno' hd h)
  | .br label, frames, code, f, d, a, _, _, hcount, hcode, hd, h => by
    rw [Codegen.shape] at hcode
    rw [Shape.run, pure_bind]
    exact jump_ends hl (hcount.around label) hcode hd h
  | .setDispatch id, frames, code, f, d, a, _, hin, _, hcode, hd, h => by
    rw [Codegen.shape] at hcode
    cases hcode
    have hid := hin.setDispatch id .self
    have hsteps : Steps env [.i32Const (UInt32.ofNat id), .localSet c.dispatchLocal] [] a [] _ :=
      Steps.i32Const.cons (.put h.dispatchLocal_lt)
    rw [hsteps fuel, Shape.run, pure_bind]
    exact ⟨rfl, hid, h.setDispatch id⟩

/-- The code of shapes does what they do, one after the other. -/
lemma shapes_ends (hl : Linked c r image services env) (fuel : Nat) : {items : List (Shape (List Op) Operand)} →
    {frames : List Enclosing} → {code : List Instruction} → {f : Frame H} → {d : Nat} → {a : Activation H} →
    Shape.AllOf (Op.AllDeclared c.types.size) (Operand.Declared c.types.size) items →
    (∀ y ∈ items, Encoded y) → (∀ y ∈ items, Counted c frames y) →
    Codegen.shapes c frames items = .ok code → d < 2 ^ 32 → Tracks c r image f d a →
    ShapeEnds c r image frames
      ((Shape.runList (Interp.visitor services c.types) fuel items d >>= settle services frames) f)
      (Instruction.execAll env fuel code [] a)
  | [], frames, code, f, d, a, _, _, _, hcode, hd, h => by
    rw [Codegen.shapes] at hcode
    cases hcode
    exact ⟨rfl, hd, h⟩
  | x :: rest, frames, code, f, d, a, hx, hin, hcount, hcode, hd, h => by
    rw [Shape.AllOf] at hx
    obtain ⟨first, rest', hfirst, hrest, rfl⟩ := Codegen.shapes_cons_eq_ok hcode
    have hmem : ∀ {y}, y ∈ rest → y ∈ x :: rest := List.mem_cons_of_mem x
    rw [runList_settle, Instruction.execAll_append]
    apply (shape_ends hl fuel hx.1 (hin x (List.mem_cons_self ..)) (hcount x (List.mem_cons_self ..)) hfirst hd
      h).bind
    rintro ⟨ctrl, d'⟩ f₁ left a₁ ⟨hleft, hd', h₁⟩
    cases ctrl with
    | next =>
      cases hleft
      exact shapes_ends hl fuel hx.2 (fun y hy => hin y (hmem hy)) (fun y hy => hcount y (hmem hy)) hrest hd'
        h₁
    | ret value =>
      cases hleft
      exact ⟨rfl, hd', h₁⟩
    | jump label =>
      obtain ⟨depth, hdepth, rfl⟩ := hleft
      exact ⟨⟨depth, hdepth, rfl⟩, hd', h₁⟩

end

end Dynarec.Wasm
