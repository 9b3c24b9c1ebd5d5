import Dynarec.Wasm.Instruction

/-!
# Modules

A module that exports one function and imports a memory and the host functions that it calls, in
its binary form. The types of host functions and of the exported function are always declared, in
one order.
-/

namespace Dynarec.Wasm

/-- Type of a value. -/
inductive ValType where
  | i32
  | i64
  deriving DecidableEq, Repr

/-- A host function that compiled code may call. -/
inductive Import where
  | callSlot
  | jumpToPc
  | tick
  deriving DecidableEq, Repr

/-- The module name of every import. -/
def importModule : String := "env"

/-- The name of the imported memory. -/
def importMemory : String := "memory"

/-- The name of an imported function. -/
def Import.name : Import → String
  | .callSlot => "call_slot"
  | .jumpToPc => "jump_to_pc"
  | .tick => "tick"

/-- Position of the type of an imported function. -/
def Import.typeIndex : Import → Nat
  | .callSlot => 0
  | .jumpToPc => 1
  | .tick => 2

/-- Position of the type of the exported function. -/
def runTypeIndex : Nat := 3

/-- The declared types, as parameters and results. -/
def functionTypes : List (List ValType × List ValType) :=
  [([.i32, .i32], [.i64]), ([.i32, .i64], [.i64]), ([.i32], []), ([.i32], [.i64])]

/-- A module: the limits of the memory it imports, the functions it imports, the name it exports
its function under, and that function, with its 64-bit locals before one 32-bit local. -/
structure Module where
  memoryMin : Nat
  memoryMax : Option Nat
  imports : List Import
  exportName : String
  longLocals : Nat
  body : List Instruction

namespace Module

/-- A list with its length. -/
def vector (items : List (List UInt8)) : List UInt8 :=
  Leb128.unsigned items.length ++ items.flatten

/-- A name with its length in bytes. -/
def name (s : String) : List UInt8 :=
  let bytes := s.toUTF8.toList
  Leb128.unsigned bytes.length ++ bytes

/-- A section with its number and size. -/
def sectionBytes (id : UInt8) (contents : List UInt8) : List UInt8 :=
  id :: Leb128.unsigned contents.length ++ contents

/-- The byte of a value type. -/
def valType : ValType → UInt8
  | .i32 => 0x7f
  | .i64 => 0x7e

/-- A function type. -/
def functionType (type : List ValType × List ValType) : List UInt8 :=
  0x60 :: vector (type.1.map fun t => [valType t]) ++ vector (type.2.map fun t => [valType t])

/-- The limits of the memory. -/
def limits (m : Module) : List UInt8 :=
  match m.memoryMax with
  | none => 0x00 :: Leb128.unsigned m.memoryMin
  | some max => 0x01 :: Leb128.unsigned m.memoryMin ++ Leb128.unsigned max

/-- The imports: the memory and the host functions. -/
def importEntries (m : Module) : List (List UInt8) :=
  (name importModule ++ name importMemory ++ 0x02 :: m.limits) ::
    m.imports.map fun i => name importModule ++ name i.name ++ 0x00 :: Leb128.unsigned i.typeIndex

/-- The locals of the function, as groups of one type. -/
def localGroups (m : Module) : List (Nat × ValType) := [(m.longLocals, .i64), (1, .i32)]

/-- The function index of the exported function. -/
def exported (m : Module) : Nat := m.imports.length

/-- The exported function with its locals and its instructions. -/
def code (m : Module) : List UInt8 :=
  let locals := m.localGroups.map fun (count, t) => Leb128.unsigned count ++ [valType t]
  let body := vector locals ++ Instruction.encodeAll m.body ++ [0x0b]
  Leb128.unsigned body.length ++ body

/-- The bytes of a module. -/
def encode (m : Module) : ByteArray :=
  let header := [0x00, 0x61, 0x73, 0x6d, 0x01, 0x00, 0x00, 0x00]
  let entry := name m.exportName ++ 0x00 :: Leb128.unsigned m.exported
  let bytes := header ++ sectionBytes 1 (vector (functionTypes.map functionType)) ++
    sectionBytes 2 (vector m.importEntries) ++
    sectionBytes 3 (vector [Leb128.unsigned runTypeIndex]) ++
    sectionBytes 7 (vector [entry]) ++ sectionBytes 10 (vector [m.code])
  ⟨bytes.toArray⟩

end Module

end Dynarec.Wasm
