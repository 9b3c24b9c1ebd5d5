import Mathlib.Tactic.Common
import Dynarec.Shape.Basic

/-!
# Parts of shapes

The shapes inside a shape, properties of all its bodies and conditions, and where its jumps may
lead.
-/

namespace Dynarec.Shape

variable {B C : Type}

/-- A shape is another one or inside it. -/
inductive Within (x : Shape B C) : Shape B C → Prop where
  | self : Within x x
  | seq {y : Shape B C} {items : List (Shape B C)} : y ∈ items → Within x y → Within x (.seq items)
  | block {label : Nat} {inner : Shape B C} : Within x inner → Within x (.block label inner)
  | loop {label : Nat} {inner : Shape B C} : Within x inner → Within x (.loop label inner)
  | ifTrue {t : Test C} {yes no : Shape B C} : Within x yes → Within x (.cond t yes no)
  | ifFalse {t : Test C} {yes no : Shape B C} : Within x no → Within x (.cond t yes no)

mutual

lemma mem_bodies_iff {b : B} : {x : Shape B C} → b ∈ x.bodies ↔ (Shape.body b).Within x
  | .seq items => by
    rw [bodies, mem_bodiesList_iff]
    constructor
    · rintro ⟨y, hy, h⟩
      exact .seq hy h
    · intro h
      cases h with | seq hy h => exact ⟨_, hy, h⟩
  | .body b' => by
    rw [bodies, List.mem_singleton]
    constructor
    · rintro rfl
      exact .self
    · intro h
      cases h with | self => rfl
  | .block label inner => by
    rw [bodies, mem_bodies_iff]
    exact ⟨.block, fun h => by cases h with | block h => exact h⟩
  | .loop label inner => by
    rw [bodies, mem_bodies_iff]
    exact ⟨.loop, fun h => by cases h with | loop h => exact h⟩
  | .cond t yes no => by
    rw [bodies, List.mem_append, mem_bodies_iff, mem_bodies_iff]
    constructor
    · rintro (h | h)
      · exact .ifTrue h
      · exact .ifFalse h
    · intro h
      cases h with
      | ifTrue h => exact .inl h
      | ifFalse h => exact .inr h
  | .br label => by
    rw [bodies]
    exact ⟨nofun, fun h => by cases h⟩
  | .setDispatch id => by
    rw [bodies]
    exact ⟨nofun, fun h => by cases h⟩

lemma mem_bodiesList_iff {b : B} :
    {items : List (Shape B C)} → b ∈ bodiesList items ↔ ∃ y ∈ items, (Shape.body b).Within y
  | [] => by simp [bodiesList]
  | x :: rest => by simp [bodiesList, mem_bodies_iff, mem_bodiesList_iff]

end

mutual

lemma hasLoop_iff :
    {x : Shape B C} → x.hasLoop = true ↔ ∃ label inner, (Shape.loop label inner).Within x
  | .seq items => by
    rw [hasLoop, hasLoopList_iff]
    constructor
    · rintro ⟨y, hy, label, inner, h⟩
      exact ⟨label, inner, .seq hy h⟩
    · rintro ⟨label, inner, h⟩
      cases h with | seq hy h => exact ⟨_, hy, label, inner, h⟩
  | .body b => by
    rw [hasLoop]
    exact ⟨nofun, fun ⟨_, _, h⟩ => by cases h⟩
  | .block label inner => by
    rw [hasLoop, hasLoop_iff]
    exact ⟨fun ⟨l, i, h⟩ => ⟨l, i, .block h⟩, fun ⟨l, i, h⟩ => by cases h with
      | block h => exact ⟨l, i, h⟩⟩
  | .loop label inner => by
    rw [hasLoop]
    exact ⟨fun _ => ⟨label, inner, .self⟩, fun _ => rfl⟩
  | .cond t yes no => by
    rw [hasLoop, Bool.or_eq_true, hasLoop_iff, hasLoop_iff]
    constructor
    · rintro (⟨l, i, h⟩ | ⟨l, i, h⟩)
      · exact ⟨l, i, .ifTrue h⟩
      · exact ⟨l, i, .ifFalse h⟩
    · rintro ⟨l, i, h⟩
      cases h with
      | ifTrue h => exact .inl ⟨l, i, h⟩
      | ifFalse h => exact .inr ⟨l, i, h⟩
  | .br label => by
    rw [hasLoop]
    exact ⟨nofun, fun ⟨_, _, h⟩ => by cases h⟩
  | .setDispatch id => by
    rw [hasLoop]
    exact ⟨nofun, fun ⟨_, _, h⟩ => by cases h⟩

lemma hasLoopList_iff : {items : List (Shape B C)} →
    hasLoopList items = true ↔ ∃ y ∈ items, ∃ label inner, (Shape.loop label inner).Within y
  | [] => by simp [hasLoopList]
  | x :: rest => by simp [hasLoopList, hasLoop_iff, hasLoopList_iff]

end

lemma usesDispatchList_of_mem {x : Shape B C} {items : List (Shape B C)} (hx : x ∈ items)
    (h : x.usesDispatch = true) : usesDispatchList items = true := by
  induction items with
  | nil => cases hx
  | cons y items ih =>
    rw [usesDispatchList, Bool.or_eq_true]
    rcases List.mem_cons.1 hx with rfl | hx
    · exact .inl h
    · exact .inr (ih hx)

/-- What uses the dispatch variable does so inside others. -/
lemma usesDispatch_of_within {x y : Shape B C} (hx : x.Within y) (h : x.usesDispatch = true) :
    y.usesDispatch = true := by
  induction hx with
  | self => exact h
  | seq hmem _ ih => exact usesDispatchList_of_mem hmem ih
  | block _ ih | loop _ ih => exact ih
  | @ifTrue t yes no _ ih =>
    cases t with
    | cond c =>
      rw [usesDispatch, Bool.or_eq_true]
      exact .inl ih
    | dispatchIs id => rfl
  | @ifFalse t yes no _ ih =>
    cases t with
    | cond c =>
      rw [usesDispatch, Bool.or_eq_true]
      exact .inr ih
    | dispatchIs id => rfl

mutual

/-- Every body and every condition of a shape has a property. -/
def All (p : B → Prop) (q : C → Prop) : Shape B C → Prop
  | .seq items => AllOf p q items
  | .body b => p b
  | .block _ inner => All p q inner
  | .loop _ inner => All p q inner
  | .cond (.cond c) yes no => q c ∧ All p q yes ∧ All p q no
  | .cond (.dispatchIs _) yes no => All p q yes ∧ All p q no
  | .br _ => True
  | .setDispatch _ => True

/-- Every body and every condition of some shapes has a property. -/
def AllOf (p : B → Prop) (q : C → Prop) : List (Shape B C) → Prop
  | [] => True
  | x :: rest => All p q x ∧ AllOf p q rest

end

mutual

lemma all_of_bodies {p : B → Prop} :
    {x : Shape B C} → (∀ b ∈ x.bodies, p b) → x.All p fun _ => True
  | .seq items, h => by
    rw [bodies] at h
    rw [All]
    exact allOf_of_bodies h
  | .body b, h => by
    rw [All]
    exact h b (by simp [bodies])
  | .block _ inner, h | .loop _ inner, h => by
    rw [bodies] at h
    rw [All]
    exact all_of_bodies h
  | .cond t yes no, h => by
    rw [bodies] at h
    have hyes := all_of_bodies (x := yes) fun b hb => h b (List.mem_append_left _ hb)
    have hno := all_of_bodies (x := no) fun b hb => h b (List.mem_append_right _ hb)
    cases t <;> simp only [All, true_and] <;> exact ⟨hyes, hno⟩
  | .br _, _ | .setDispatch _, _ => by
    rw [All]
    trivial

lemma allOf_of_bodies {p : B → Prop} : {items : List (Shape B C)} →
    (∀ b ∈ bodiesList items, p b) → AllOf p (fun _ => True) items
  | [], _ => by
    rw [AllOf]
    trivial
  | x :: rest, h => by
    rw [bodiesList] at h
    rw [AllOf]
    exact ⟨all_of_bodies fun b hb => h b (List.mem_append_left _ hb),
      allOf_of_bodies fun b hb => h b (List.mem_append_right _ hb)⟩

end

section
variable {p p' : B → Prop} {q q' : C → Prop}

/-- What is asked of a conditional is asked of its condition and of both arms. -/
lemma All.of_cond {t : Test C} {yes no : Shape B C} (h : (Shape.cond t yes no).All p q) :
    (∀ c, t = .cond c → q c) ∧ yes.All p q ∧ no.All p q := by
  cases t with
  | cond c =>
    rw [All] at h
    exact ⟨by rintro _ ⟨⟩; exact h.1, h.2⟩
  | dispatchIs id =>
    rw [All] at h
    exact ⟨nofun, h⟩

mutual

lemma All.imp (hp : ∀ b, p b → p' b) (hq : ∀ c, q c → q' c) :
    {x : Shape B C} → x.All p q → x.All p' q'
  | .seq items, h => by
    rw [All] at h ⊢
    exact AllOf.imp hp hq h
  | .body b, h => by
    rw [All] at h ⊢
    exact hp b h
  | .block _ inner, h | .loop _ inner, h => by
    rw [All] at h ⊢
    exact All.imp hp hq h
  | .cond (.cond c) yes no, h => by
    rw [All] at h ⊢
    exact ⟨hq c h.1, h.2.1.imp hp hq, h.2.2.imp hp hq⟩
  | .cond (.dispatchIs _) yes no, h => by
    rw [All] at h ⊢
    exact ⟨h.1.imp hp hq, h.2.imp hp hq⟩
  | .br _, _ | .setDispatch _, _ => by
    rw [All]
    trivial

lemma AllOf.imp (hp : ∀ b, p b → p' b) (hq : ∀ c, q c → q' c) :
    {items : List (Shape B C)} → AllOf p q items → AllOf p' q' items
  | [], _ => by
    rw [AllOf]
    trivial
  | x :: rest, h => by
    rw [AllOf] at h ⊢
    exact ⟨h.1.imp hp hq, h.2.imp hp hq⟩

end

end

mutual

/-- Every jump leads to one of some labels or to a construct around it in the shape. -/
def Scoped (labels : List Nat) : Shape B C → Prop
  | .seq items => ScopedAll labels items
  | .body _ => True
  | .block label inner => Scoped (label :: labels) inner
  | .loop label inner => Scoped (label :: labels) inner
  | .cond _ yes no => Scoped labels yes ∧ Scoped labels no
  | .br label => label ∈ labels
  | .setDispatch _ => True

/-- Every jump of some shapes leads to one of some labels or to a construct around it. -/
def ScopedAll (labels : List Nat) : List (Shape B C) → Prop
  | [] => True
  | x :: rest => Scoped labels x ∧ ScopedAll labels rest

end

variable {labels : List Nat}

lemma scopedAll_append {xs ys : List (Shape B C)} :
    ScopedAll labels (xs ++ ys) ↔ ScopedAll labels xs ∧ ScopedAll labels ys := by
  induction xs with
  | nil => simp [ScopedAll]
  | cons x xs ih => simp only [List.cons_append, ScopedAll, ih, and_assoc]

lemma scopedAll_members (x : Shape B C) : ScopedAll labels x.members ↔ x.Scoped labels := by
  cases x <;> simp [members, ScopedAll, Scoped]

lemma scopedAll_flatMap {xs : List (Shape B C)} :
    ScopedAll labels (xs.flatMap members) ↔ ScopedAll labels xs := by
  induction xs with
  | nil => rfl
  | cons x xs ih =>
    rw [List.flatMap_cons, scopedAll_append, scopedAll_members, ih]
    rfl

/-- Putting shapes in sequence keeps their jumps. -/
lemma scoped_ofList {xs : List (Shape B C)} : (ofList xs).Scoped labels ↔ ScopedAll labels xs := by
  rw [← scopedAll_flatMap]
  unfold ofList
  split
  · next x hx => simp [hx, ScopedAll]
  · rw [Scoped]

end Dynarec.Shape
