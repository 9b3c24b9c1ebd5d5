import Mathlib.Data.List.Perm.Basic
import Dynarec.Shape.Basic

/-!
# What stands in a shape

A shape is made of bodies, tests, and the labels of its blocks and loops. Listing the three in the
order in which they stand in the shape tells how often each one does.
-/

namespace Dynarec

/-- The condition of the program that a test asks. -/
def Test.condition? {C : Type} : Test C → Option C
  | .cond c => some c
  | .dispatchIs _ => none

/-- A body, a test of a conditional, or the label of a block or a loop. -/
inductive Piece (B C : Type) where
  | body (b : B)
  | test (t : Test C)
  | label (k : Nat)

namespace Piece

variable {B C : Type}

/-- The body that a piece is. -/
def body? : Piece B C → Option B
  | .body b => some b
  | _ => none

/-- The condition of the program that a piece asks. -/
def condition? : Piece B C → Option C
  | .test t => t.condition?
  | _ => none

/-- The label that a piece is. -/
def label? : Piece B C → Option Nat
  | .label k => some k
  | _ => none

end Piece

namespace Shape

variable {B C : Type}

mutual

/-- The pieces of a shape in order. -/
def pieces : Shape B C → List (Piece B C)
  | .seq items => piecesAll items
  | .body b => [.body b]
  | .block label inner => .label label :: inner.pieces
  | .loop label inner => .label label :: inner.pieces
  | .cond test yes no => .test test :: (yes.pieces ++ no.pieces)
  | .br _ => []
  | .setDispatch _ => []

/-- The pieces of shapes in order. -/
def piecesAll : List (Shape B C) → List (Piece B C)
  | [] => []
  | x :: rest => x.pieces ++ piecesAll rest

end

/-- The conditions of the program that a shape asks, in order. -/
def conditions (x : Shape B C) : List C := x.pieces.filterMap Piece.condition?

/-- The labels of the blocks and loops of a shape, in order. -/
def labels (x : Shape B C) : List Nat := x.pieces.filterMap Piece.label?

mutual

/-- The bodies of a shape are those among its pieces. -/
lemma filterMap_pieces : (x : Shape B C) → x.pieces.filterMap Piece.body? = x.bodies
  | .seq items => by
    rw [pieces, bodies]
    exact filterMap_piecesAll items
  | .body b => rfl
  | .block _ inner | .loop _ inner => by
    rw [pieces, bodies]
    exact filterMap_pieces inner
  | .cond _ yes no => by
    rw [pieces, bodies, ← filterMap_pieces yes, ← filterMap_pieces no, ← List.filterMap_append]
    rfl
  | .br _ | .setDispatch _ => rfl

lemma filterMap_piecesAll :
    (items : List (Shape B C)) → (piecesAll items).filterMap Piece.body? = bodiesList items
  | [] => rfl
  | x :: rest => by
    rw [piecesAll, bodiesList, List.filterMap_append, filterMap_pieces x, filterMap_piecesAll rest]

end

lemma piecesAll_append (xs ys : List (Shape B C)) :
    piecesAll (xs ++ ys) = piecesAll xs ++ piecesAll ys := by
  induction xs with
  | nil => rfl
  | cons x xs ih => rw [List.cons_append, piecesAll, piecesAll, ih, List.append_assoc]

lemma piecesAll_members (x : Shape B C) : piecesAll x.members = x.pieces := by
  cases x with
  | seq items => rw [members, pieces]
  | _ => exact List.append_nil _

lemma piecesAll_flatMap (xs : List (Shape B C)) : piecesAll (xs.flatMap members) = piecesAll xs := by
  induction xs with
  | nil => rfl
  | cons x xs ih => rw [List.flatMap_cons, piecesAll_append, piecesAll_members, ih, piecesAll]

/-- Putting shapes in sequence keeps their pieces. -/
lemma pieces_ofList (xs : List (Shape B C)) : (ofList xs).pieces = piecesAll xs := by
  rw [← piecesAll_flatMap]
  unfold ofList
  split
  · next x hx => rw [hx, piecesAll, piecesAll, List.append_nil]
  · rw [pieces]

end Shape

end Dynarec
