import Dynarec.Ir.Basic

/-!
# Scratch locals

The locals of the function being compiled. A released local waits on the list of its type and is
handed out again, the latest first, before a new one is declared.
-/

namespace Dynarec.Ir

/-- The types of the declared locals, which of them are held, and the released ones. -/
structure Scratch where
  types : Array Ty
  held : Array Bool
  freeI32 : List Local
  freeI64 : List Local

namespace Scratch

/-- No local is declared. -/
def empty : Scratch := ⟨#[], #[], [], []⟩

/-- The released locals of a type. -/
def free (s : Scratch) : Ty → List Local
  | .i32 => s.freeI32
  | .i64 => s.freeI64

/-- Replace the list of released locals of a type. -/
def setFree (s : Scratch) (free : List Local) : Ty → Scratch
  | .i32 => { s with freeI32 := free }
  | .i64 => { s with freeI64 := free }

/-- Hand out a local of a type. -/
def alloc (s : Scratch) (ty : Ty) : Local × Scratch :=
  match s.free ty with
  | l :: rest => (l, { s.setFree rest ty with held := s.held.setIfInBounds l.id true })
  | [] => (⟨s.types.size⟩, { s with types := s.types.push ty, held := s.held.push true })

/-- Take a local back; `none` when it is not held. -/
def release (s : Scratch) (l : Local) : Option Scratch :=
  match s.types[l.id]? with
  | none => none
  | some ty =>
    if s.held.getD l.id false then
      some { s.setFree (l :: s.free ty) ty with held := s.held.setIfInBounds l.id false }
    else none

/-- Number of locals that are handed out. -/
def heldCount (s : Scratch) : Nat := s.held.count true

end Scratch

end Dynarec.Ir
