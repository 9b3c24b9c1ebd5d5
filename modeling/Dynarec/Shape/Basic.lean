/-!
# Shapes

A shape is structured control flow around opaque block bodies: sequences, conditionals, blocks and
loops. Control leaves a construct by reaching its end or by a jump to the label of an enclosing
block, which goes on after it, or of an enclosing loop, which starts it again. A dispatch variable
remembers which of several places a loop has to go on with.
-/

namespace Dynarec

/-- What a conditional asks: a condition of the program, or whether the dispatch variable has a
value. -/
inductive Test (C : Type) where
  | cond (c : C)
  | dispatchIs (id : Nat)
  deriving DecidableEq, Repr

/-- Structured control flow over bodies and conditions. -/
inductive Shape (B C : Type) where
  | seq (items : List (Shape B C))
  | body (b : B)
  | block (label : Nat) (inner : Shape B C)
  | loop (label : Nat) (inner : Shape B C)
  | cond (test : Test C) (ifTrue ifFalse : Shape B C)
  | br (label : Nat)
  | setDispatch (id : Nat)

namespace Shape

variable {B C : Type}

/-- The shape that does nothing. -/
def empty : Shape B C := .seq []

/-- The members of a shape in a sequence: those of a sequence, and a shape alone otherwise. -/
def members : Shape B C → List (Shape B C)
  | .seq items => items
  | s => [s]

/-- Put shapes in sequence, without a sequence directly inside it or one of a single member. -/
def ofList (items : List (Shape B C)) : Shape B C :=
  match items.flatMap members with
  | [only] => only
  | flat => .seq flat

mutual

/-- The bodies of a shape in order. -/
def bodies : Shape B C → List B
  | .seq items => bodiesList items
  | .body b => [b]
  | .block _ inner => inner.bodies
  | .loop _ inner => inner.bodies
  | .cond _ ifTrue ifFalse => ifTrue.bodies ++ ifFalse.bodies
  | .br _ => []
  | .setDispatch _ => []

/-- The bodies of shapes in order. -/
def bodiesList : List (Shape B C) → List B
  | [] => []
  | s :: rest => s.bodies ++ bodiesList rest

end

mutual

/-- Whether the dispatch variable is read or written. -/
def usesDispatch : Shape B C → Bool
  | .seq items => usesDispatchList items
  | .body _ => false
  | .block _ inner => inner.usesDispatch
  | .loop _ inner => inner.usesDispatch
  | .cond (.dispatchIs _) _ _ => true
  | .cond (.cond _) ifTrue ifFalse => ifTrue.usesDispatch || ifFalse.usesDispatch
  | .br _ => false
  | .setDispatch _ => true

/-- Whether one of some shapes reads or writes the dispatch variable. -/
def usesDispatchList : List (Shape B C) → Bool
  | [] => false
  | s :: rest => s.usesDispatch || usesDispatchList rest

end

mutual

/-- Whether there is a loop. -/
def hasLoop : Shape B C → Bool
  | .seq items => hasLoopList items
  | .body _ => false
  | .block _ inner => inner.hasLoop
  | .loop _ _ => true
  | .cond _ ifTrue ifFalse => ifTrue.hasLoop || ifFalse.hasLoop
  | .br _ => false
  | .setDispatch _ => false

/-- Whether one of some shapes has a loop. -/
def hasLoopList : List (Shape B C) → Bool
  | [] => false
  | s :: rest => s.hasLoop || hasLoopList rest

end

end Shape

end Dynarec
