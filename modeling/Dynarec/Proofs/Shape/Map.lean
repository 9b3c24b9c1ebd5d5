import Dynarec.Proofs.Shape.Parts

/-!
# Mapping shapes

Replacing the bodies and the conditions of a shape. What holds of every body and condition of a
mapped shape is what holds of their images.
-/

namespace Dynarec

/-- Replace the condition of a test. -/
def Test.map {C C' : Type} (h : C → C') : Test C → Test C'
  | .cond c => .cond (h c)
  | .dispatchIs id => .dispatchIs id

lemma Test.map_map {C C' C'' : Type} (h : C → C') (h' : C' → C'') (t : Test C) :
    (t.map h).map h' = t.map fun c => h' (h c) := by
  cases t <;> rfl

namespace Shape

variable {B B' C C' : Type}

mutual

/-- Replace the bodies and the conditions of a shape. -/
def map (f : B → B') (h : C → C') : Shape B C → Shape B' C'
  | .seq items => .seq (mapAll f h items)
  | .body b => .body (f b)
  | .block label inner => .block label (map f h inner)
  | .loop label inner => .loop label (map f h inner)
  | .cond t yes no => .cond (t.map h) (map f h yes) (map f h no)
  | .br label => .br label
  | .setDispatch id => .setDispatch id

/-- Replace the bodies and the conditions of shapes. -/
def mapAll (f : B → B') (h : C → C') : List (Shape B C) → List (Shape B' C')
  | [] => []
  | x :: rest => map f h x :: mapAll f h rest

end

variable {f : B → B'} {h : C → C'}

lemma mapAll_eq_map (items : List (Shape B C)) : mapAll f h items = items.map (map f h) := by
  induction items with
  | nil => simp [mapAll]
  | cons x rest ih => simp [mapAll, ih]

lemma members_map (x : Shape B C) : (x.map f h).members = x.members.map (map f h) := by
  cases x <;> simp [map, members, mapAll_eq_map]

lemma ofList_map (items : List (Shape B C)) :
    (ofList items).map f h = ofList (items.map (map f h)) := by
  have hmembers : (items.map (map f h)).flatMap members =
      (items.flatMap members).map (map f h) := by
    rw [List.flatMap_map, List.map_flatMap]
    simp only [members_map]
  unfold ofList
  rw [hmembers]
  rcases items.flatMap members with _ | ⟨x, _ | ⟨y, rest⟩⟩
  · simp [map, mapAll]
  · simp
  · simp [map, mapAll_eq_map]

mutual

lemma map_id : (x : Shape B C) → x.map id id = x
  | .seq items => by rw [map, mapAll_id items]
  | .body b => by rw [map, id]
  | .block _ inner | .loop _ inner => by rw [map, map_id inner]
  | .cond t yes no => by
    rw [map, map_id yes, map_id no]
    cases t <;> rfl
  | .br _ | .setDispatch _ => by rw [map]

lemma mapAll_id : (items : List (Shape B C)) → mapAll id id items = items
  | [] => by rw [mapAll]
  | x :: rest => by rw [mapAll, map_id x, mapAll_id rest]

end

mutual

/-- A property of all bodies and conditions after mapping is one of all before. -/
lemma all_map {p : B' → Prop} {q : C' → Prop} : {x : Shape B C} →
    ((x.map f h).All p q ↔ x.All (fun b => p (f b)) fun c => q (h c))
  | .seq items => by rw [map, All, All, allOf_map]
  | .body b => by rw [map, All, All]
  | .block label inner | .loop label inner => by rw [map, All, All, all_map]
  | .cond (.cond c) yes no => by rw [map, Test.map, All, All, all_map, all_map]
  | .cond (.dispatchIs id) yes no => by rw [map, Test.map, All, All, all_map, all_map]
  | .br _ | .setDispatch _ => by rw [map, All, All]

lemma allOf_map {p : B' → Prop} {q : C' → Prop} : {items : List (Shape B C)} →
    (AllOf p q (mapAll f h items) ↔ AllOf (fun b => p (f b)) (fun c => q (h c)) items)
  | [] => by rw [mapAll, AllOf, AllOf]
  | x :: rest => by rw [mapAll, AllOf, AllOf, all_map, allOf_map]

end

mutual

/-- Mapping goes by the bodies and conditions of the shape only. -/
lemma map_congr {f' : B → B'} {h' : C → C'} : {x : Shape B C} →
    x.All (fun b => f b = f' b) (fun c => h c = h' c) → x.map f h = x.map f' h'
  | .seq items, hx => by rw [map, map, mapAll_congr (by rwa [All] at hx)]
  | .body b, hx => by
    rw [All] at hx
    rw [map, map, hx]
  | .block _ inner, hx | .loop _ inner, hx => by rw [map, map, map_congr (by rwa [All] at hx)]
  | .cond (.cond c) yes no, hx => by
    rw [All] at hx
    rw [map, map, Test.map, Test.map, hx.1, map_congr hx.2.1, map_congr hx.2.2]
  | .cond (.dispatchIs id) yes no, hx => by
    rw [All] at hx
    rw [map, map, Test.map, Test.map, map_congr hx.1, map_congr hx.2]
  | .br _, _ | .setDispatch _, _ => by rw [map, map]

lemma mapAll_congr {f' : B → B'} {h' : C → C'} : {items : List (Shape B C)} →
    AllOf (fun b => f b = f' b) (fun c => h c = h' c) items →
      mapAll f h items = mapAll f' h' items
  | [], _ => by rw [mapAll, mapAll]
  | x :: rest, hx => by
    rw [AllOf] at hx
    rw [mapAll, mapAll, map_congr hx.1, mapAll_congr hx.2]

end

mutual

lemma all_of_forall {p : B → Prop} {q : C → Prop} (hp : ∀ b, p b) (hq : ∀ c, q c) :
    (x : Shape B C) → x.All p q
  | .seq items => by rw [All]; exact allOf_of_forall hp hq items
  | .body b => by rw [All]; exact hp b
  | .block _ inner | .loop _ inner => by rw [All]; exact all_of_forall hp hq inner
  | .cond (.cond c) yes no => by
    rw [All]
    exact ⟨hq c, all_of_forall hp hq yes, all_of_forall hp hq no⟩
  | .cond (.dispatchIs id) yes no => by
    rw [All]
    exact ⟨all_of_forall hp hq yes, all_of_forall hp hq no⟩
  | .br _ | .setDispatch _ => by rw [All]; trivial

lemma allOf_of_forall {p : B → Prop} {q : C → Prop} (hp : ∀ b, p b) (hq : ∀ c, q c) :
    (items : List (Shape B C)) → AllOf p q items
  | [] => by rw [AllOf]; trivial
  | x :: rest => by rw [AllOf]; exact ⟨all_of_forall hp hq x, allOf_of_forall hp hq rest⟩

end

end Shape

end Dynarec
