import Dynarec.Cpu.Flags

/-!
# Condition codes

The sixteen conditions on the flags that instructions name in four bits. Inverting a condition
flips its lowest bit; `al` and `nv` both hold always, so they are inverses of each other in name
only.
-/

namespace Dynarec.Cpu

/-- A condition code. -/
inductive Cond where
  | eq
  | ne
  | cs
  | cc
  | mi
  | pl
  | vs
  | vc
  | hi
  | ls
  | ge
  | lt
  | gt
  | le
  | al
  | nv
  deriving DecidableEq, Repr

namespace Cond

/-- The number of a condition. -/
def bits : Cond → Nat
  | .eq => 0
  | .ne => 1
  | .cs => 2
  | .cc => 3
  | .mi => 4
  | .pl => 5
  | .vs => 6
  | .vc => 7
  | .hi => 8
  | .ls => 9
  | .ge => 10
  | .lt => 11
  | .gt => 12
  | .le => 13
  | .al => 14
  | .nv => 15

/-- The condition whose number is the low four bits of a number. -/
def ofBits (n : Nat) : Cond :=
  match n % 16 with
  | 0 => .eq
  | 1 => .ne
  | 2 => .cs
  | 3 => .cc
  | 4 => .mi
  | 5 => .pl
  | 6 => .vs
  | 7 => .vc
  | 8 => .hi
  | 9 => .ls
  | 10 => .ge
  | 11 => .lt
  | 12 => .gt
  | 13 => .le
  | 14 => .al
  | _ => .nv

/-- The condition with the opposite number. -/
def invert (c : Cond) : Cond := ofBits (c.bits ^^^ 1)

/-- Whether the condition holds whatever the flags are. -/
def isAlways : Cond → Bool
  | .al | .nv => true
  | _ => false

/-- Whether the condition holds of the flags. -/
def holds (c : Cond) (f : Nzcv) : Bool :=
  match c with
  | .eq => f.z
  | .ne => !f.z
  | .cs => f.c
  | .cc => !f.c
  | .mi => f.n
  | .pl => !f.n
  | .vs => f.v
  | .vc => !f.v
  | .hi => f.c && !f.z
  | .ls => !(f.c && !f.z)
  | .ge => f.n == f.v
  | .lt => f.n != f.v
  | .gt => !f.z && f.n == f.v
  | .le => !(!f.z && f.n == f.v)
  | .al | .nv => true

/-- The name of the condition in listings. -/
def name : Cond → String
  | .eq => "eq"
  | .ne => "ne"
  | .cs => "hs"
  | .cc => "lo"
  | .mi => "mi"
  | .pl => "pl"
  | .vs => "vs"
  | .vc => "vc"
  | .hi => "hi"
  | .ls => "ls"
  | .ge => "ge"
  | .lt => "lt"
  | .gt => "gt"
  | .le => "le"
  | .al => "al"
  | .nv => "nv"

end Cond

end Dynarec.Cpu
