import Dynarec.Proofs.Flow.Inventory
import Dynarec.Proofs.Shape.Watched

/-!
# Dispatchers find the variable set

An exit to a dispatcher sets the dispatch variable to an entry of that dispatcher, and only a
dispatcher asks for the variable, for its own entries. So it is with the shape that is placed: control
comes to a block that dispatches only with the variable last set to one of its entries.
-/

namespace Dynarec.Flow.Graph

open Shape (Guarded GuardedAll guarded_ofList guardedAll_append)

variable {B C : Type} {g : Graph B C} {d : Dominance} {n : Nat} {entries : Nat → Option (List Nat)}

/-- Blocks are dispatchers with certain entries: exits to them set the dispatch variable to an entry,
and no other block asks for it. -/
structure Routed (g : Graph B C) (entries : Nat → Option (List Nat)) : Prop where
  exit : ∀ n, ∀ e ∈ g.exits n, ∀ es, entries e.target = some es → ∃ t ∈ es, e.dispatch = some t
  test : ∀ n, ∀ e ∈ g.exits n, ∀ id, e.test = some (.dispatchIs id) →
    ∃ es, entries n = some es ∧ id ∈ es

/-- What the dispatch variable was last set to is known where a block is placed. -/
def Arrives (entries : Nat → Option (List Nat)) (n : Nat) (a : Option Nat) : Prop :=
  ∀ es, entries n = some es → ∃ t ∈ es, a = some t

/-- A dispatcher asks for one of its entries when the variable was last set to one of them. -/
def Asks (entries : Nat → Option (List Nat)) (id : Nat) (a : Option Nat) : Prop :=
  ∃ n es, entries n = some es ∧ id ∈ es ∧ ∃ t ∈ es, a = some t

section

variable {goes : B → Prop} {jump : Nat → Option Nat → Prop} {next : Option Nat → Prop}
  {a : Option Nat}

/-- Control may jump to the constructs around a place with what is known of their blocks. -/
def Awaits (entries : Nat → Option (List Nat)) (jump : Nat → Option Nat → Prop)
    (frames : List Frame) : Prop :=
  ∀ f ∈ frames, ∀ a, Arrives entries f.target a → jump f.label a

/-- A way of placing blocks with some property that gives guarded shapes. -/
def PlacesGuarded (entries : Nat → Option (List Nat)) (goes : B → Prop) (P : Nat → Prop)
    (place : List Frame → Nat → PlaceM (Shape B C)) : Prop :=
  ∀ frames n st x st', place frames n st = .ok (x, st') → P n →
    (∀ f ∈ frames, f.label < st.nextLabel) → ∀ jump next a, Awaits entries jump frames →
      Arrives entries n a → x.Guarded (Asks entries) goes jump next a

variable {P : Nat → Prop} {place : List Frame → Nat → PlaceM (Shape B C)} {frames : List Frame}
  {st st' : Placing} {x : Shape B C}

/-- A new construct is among those around its inside. -/
lemma Awaits.cons (h : Awaits entries jump frames) {f : Frame} {here : Option Nat → Prop}
    (hnew : ∀ f' ∈ frames, f'.label < f.label) (hhere : ∀ b, Arrives entries f.target b → here b) :
    Awaits entries (fun k b => if k = f.label then here b else jump k b) (f :: frames) := by
  intro f' hf' b hb
  rcases List.mem_cons.1 hf' with rfl | hf'
  · exact (if_pos rfl).symm ▸ hhere b hb
  · exact (if_neg (hnew f' hf').ne).symm ▸ h f' hf' b hb

section

variable (hroute : g.Routed entries) (hplace : PlacesGuarded entries goes P place)
  (hnew : ∀ f ∈ frames, f.label < st.nextLabel) (hjump : Awaits entries jump frames)
include hplace hnew hjump

lemma placeTarget_guarded {t : Nat} (ht : P t)
    (h : placeTarget d place frames n t st = .ok (x, st')) (ha : Arrives entries t a) :
    x.Guarded (Asks entries) goes jump next a := by
  rcases placeTarget_eq_ok h with ⟨-, h⟩ | ⟨f, hf, rfl, -, -, rfl, -⟩
  · exact hplace _ _ _ _ _ h ht hnew _ _ _ hjump ha
  · exact hjump f hf a ha

include hroute

lemma placeExit_guarded {e : Exit C} (he : e ∈ g.exits n) (ht : P e.target)
    (h : placeExit d place frames n e st = .ok (x, st')) :
    x.Guarded (Asks entries) goes jump next a := by
  obtain ⟨inner, hinner, rfl⟩ := placeExit_eq_ok h
  have hroute := hroute.exit n e he
  cases hd : e.dispatch with
  | some id =>
    rw [hd] at hroute
    rw [Option.elim_some, guarded_ofList]
    show inner.Guarded (Asks entries) goes jump next (some id)
    exact placeTarget_guarded hplace hnew hjump ht hinner hroute
  | none =>
    rw [hd] at hroute
    refine placeTarget_guarded hplace hnew hjump ht hinner fun es hes => ?_
    obtain ⟨t, -, heq⟩ := hroute es hes
    cases heq

lemma placeExits_guarded (hall : g.PlacesAll d place) {exits : List (Exit C)}
    (hexits : Complete exits) (hsub : ∀ e ∈ exits, e ∈ g.exits n) (hP : ∀ e ∈ exits, P e.target)
    (h : placeExits d place frames n exits st = .ok (x, st')) (ha : Arrives entries n a) :
    x.Guarded (Asks entries) goes jump next a := by
  induction hexits generalizing x st' with
  | @last e ht =>
    obtain ⟨o, inner, st₁, ho, hinner, rfl⟩ := placeExits_cons_eq_ok h
    cases ho
    rw [ht]
    exact placeExit_guarded hroute hplace hnew hjump (hsub e List.mem_cons_self)
      (hP e List.mem_cons_self) hinner
  | @test e t rest ht hrest ih =>
    obtain ⟨o, inner, st₁, ho, hinner, rfl⟩ := placeExits_cons_eq_ok h
    rw [ht]
    obtain ⟨_, _, hputs⟩ := placeExits_puts hall (.inr hrest) ho
    have hno := ih (fun e' he' => hsub e' (List.mem_cons_of_mem _ he'))
      (fun e' he' => hP e' (List.mem_cons_of_mem _ he')) ho
    have hyes : inner.Guarded (Asks entries) goes jump next a :=
      placeExit_guarded hroute hplace (fun f hf => (hnew f hf).trans_le hputs.le) hjump
        (hsub e List.mem_cons_self) (hP e List.mem_cons_self) hinner
    cases t with
    | cond c => exact ⟨hyes, hno⟩
    | dispatchIs id =>
      obtain ⟨es, hes, hid⟩ := hroute.test n e (hsub e List.mem_cons_self) id ht
      exact ⟨⟨n, es, hes, hid, ha es hes⟩, hyes, hno⟩

omit hnew hjump in
lemma placeWithin_guarded (hall : g.PlacesAll d place)
    (hexits : g.exits n = [] ∨ Complete (g.exits n))
    (hret : g.exits n = [] → ∃ b, g.body? n = some b ∧ ¬ goes b)
    (hP : ∀ e ∈ g.exits n, P e.target) {ys : List Nat} (hys : ∀ y ∈ ys, P y)
    (hnew : ∀ f ∈ frames, f.label < st.nextLabel) (hjump : Awaits entries jump frames)
    (h : g.placeWithin d place n ys frames st = .ok (x, st')) (ha : Arrives entries n a) :
    x.Guarded (Asks entries) goes jump next a := by
  induction ys generalizing frames st st' x jump next with
  | nil =>
    obtain ⟨inner, hinner, rfl⟩ := placeWithin_nil_eq_ok h
    rw [guarded_ofList, guardedAll_append]
    rcases hexits with hnil | hc
    · -- control does not come to the end of a block without exits
      obtain ⟨b, hb, hgoes⟩ := hret hnil
      rw [hb]
      exact fun hgo => absurd hgo hgoes
    · have hinner : ∀ next, inner.Guarded (Asks entries) goes jump next a := fun next =>
        placeExits_guarded hroute hplace hnew hjump hall hc (fun _ he => he) hP hinner ha
      cases g.body? n with
      | none => exact hinner next
      | some b => exact fun _ => hinner next
  | cons y rest ih =>
    obtain ⟨inner, follow, st₁, hinner, hfollow, rfl⟩ := placeWithin_cons_eq_ok h
    obtain ⟨_, _, hputs⟩ := placeWithin_puts hall hexits hinner
    have hle : st.nextLabel ≤ st₁.nextLabel := (Nat.le_succ _).trans hputs.le
    have hhere : ∀ b, Arrives entries y b → GuardedAll (Asks entries) goes [follow] jump next b :=
      fun b hb => hplace _ _ _ _ _ hfollow (hys y List.mem_cons_self)
        (fun f hf => (hnew f hf).trans_le hle) _ _ _ hjump hb
    rw [guarded_ofList]
    show inner.Guarded (Asks entries) goes _ _ a
    exact ih (fun y' hy' => hys y' (List.mem_cons_of_mem _ hy')) (label_lt_cons hnew)
      (hjump.cons (f := ⟨y, .block, st.nextLabel⟩) hnew hhere) hinner

end

end

/-- The shape that is placed is guarded, if only blocks with exits go on at their end. -/
theorem placeTree_guarded {goes : B → Prop} {P : Nat → Prop} (hroute : g.Routed entries)
    (hexits : ∀ n, g.exits n = [] ∨ Complete (g.exits n))
    (hret : ∀ n, P n → g.exits n = [] → ∃ b, g.body? n = some b ∧ ¬ goes b)
    (hP : ∀ n, P n → ∀ e ∈ g.exits n, P e.target)
    (hchildren : ∀ n, ∀ y ∈ d.children.getD n [], P y) (fuel : Nat) :
    PlacesGuarded entries goes P (g.placeTree d fuel) := by
  induction fuel with
  | zero =>
    intro frames n st x st' h
    cases h
  | succ fuel ih =>
    intro frames n st x st' h hn hnew jump next a hjump ha
    have hall := placeTree_puts (d := d) hexits fuel
    have hmerges : ∀ y ∈ (d.children.getD n []).filter fun y => d.merge.getD y false, P y :=
      fun y hy => hchildren n y (List.mem_filter.1 hy).1
    rcases (placeTree_succ_eq_ok h).2 with ⟨inner, hinner, rfl⟩ | h
    · refine ⟨Arrives entries n, ha, fun b hb => ?_⟩
      exact placeWithin_guarded hroute ih hall (hexits n) (hret n hn) (hP n hn) hmerges
        (label_lt_cons hnew) (hjump.cons (f := ⟨n, .loop, st.nextLabel⟩) hnew fun _ hb => hb)
        hinner hb
    · refine placeWithin_guarded hroute ih hall (hexits n) (hret n hn) (hP n hn) hmerges ?_ hjump h ha
      exact hnew

end Dynarec.Flow.Graph
