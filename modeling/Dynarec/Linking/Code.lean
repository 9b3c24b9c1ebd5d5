import Dynarec.Ir.Basic
import Dynarec.Linking.Slots

/-!
# Compiled code

What a slot holds when its function is compiled: the function, and its module where modules are
made.
-/

namespace Dynarec.Linking

/-- A compiled function, with the bytes of its module if it has one. -/
structure Code where
  function : Ir.Function
  binary : Option ByteArray

end Dynarec.Linking
