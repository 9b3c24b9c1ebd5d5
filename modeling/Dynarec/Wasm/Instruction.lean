import Dynarec.Memory
import Dynarec.Wasm.Leb128
import Dynarec.Word.Width

/-!
# Stack instructions

The instructions of the stack machine that compiled functions are written for, as far as they are
used, with their binary form. Structured instructions hold what they enclose.
-/

namespace Dynarec.Wasm

/-- A binary numeric operation. -/
inductive BinOp where
  | add
  | sub
  | mul
  | divS
  | divU
  | and
  | or
  | xor
  | shl
  | shrS
  | shrU
  | rotr
  deriving DecidableEq, Repr

/-- A comparison of two numbers. -/
inductive RelOp where
  | eq
  | ne
  | ltS
  | ltU
  | gtS
  | gtU
  | leS
  | leU
  | geS
  | geU
  deriving DecidableEq, Repr

/-- An instruction. A conditional leaves a 64-bit value when `result` is set and nothing
otherwise. -/
inductive Instruction where
  | unreachable
  | block (inner : List Instruction)
  | loop (inner : List Instruction)
  | ifThen (ifTrue : List Instruction)
  | ifElse (result : Bool) (ifTrue ifFalse : List Instruction)
  | br (depth : Nat)
  | ret
  | call (function : Nat)
  | drop
  | select
  | localGet (index : Nat)
  | localSet (index : Nat)
  | load (size : AccessSize) (offset : Nat)
  | store (size : AccessSize) (offset : Nat)
  | i32Const (value : UInt32)
  | i64Const (value : UInt64)
  | eqz64
  | rel (width : Width) (op : RelOp)
  | bin (width : Width) (op : BinOp)
  | wrap
  | extendU

/-- Position of a binary operation among those of its width. -/
def BinOp.code : BinOp → Nat
  | .add => 0
  | .sub => 1
  | .mul => 2
  | .divS => 3
  | .divU => 4
  | .and => 7
  | .or => 8
  | .xor => 9
  | .shl => 10
  | .shrS => 11
  | .shrU => 12
  | .rotr => 14

/-- Position of a comparison among those of its width. -/
def RelOp.code : RelOp → Nat
  | .eq => 0
  | .ne => 1
  | .ltS => 2
  | .ltU => 3
  | .gtS => 4
  | .gtU => 5
  | .leS => 6
  | .leU => 7
  | .geS => 8
  | .geU => 9

namespace Instruction

/-- The code of a load that extends with zeros to 64 bits. -/
def loadCode : AccessSize → UInt8
  | .byte => 0x31
  | .half => 0x33
  | .word => 0x35
  | .double => 0x29

/-- The code of a store of the low part of 64 bits. -/
def storeCode : AccessSize → UInt8
  | .byte => 0x3c
  | .half => 0x3d
  | .word => 0x3e
  | .double => 0x37

/-- The type of a construct that leaves a 64-bit value, or nothing. -/
def blockType (result : Bool) : UInt8 := if result then 0x7e else 0x40

mutual

/-- The bytes of an instruction. -/
def encode : Instruction → List UInt8
  | .unreachable => [0x00]
  | .block inner => 0x02 :: blockType false :: encodeAll inner ++ [0x0b]
  | .loop inner => 0x03 :: blockType false :: encodeAll inner ++ [0x0b]
  | .ifThen ifTrue => 0x04 :: blockType false :: encodeAll ifTrue ++ [0x0b]
  | .ifElse result ifTrue ifFalse =>
    0x04 :: blockType result :: encodeAll ifTrue ++ 0x05 :: encodeAll ifFalse ++ [0x0b]
  | .br depth => 0x0c :: Leb128.unsigned depth
  | .ret => [0x0f]
  | .call function => 0x10 :: Leb128.unsigned function
  | .drop => [0x1a]
  | .select => [0x1b]
  | .localGet index => 0x20 :: Leb128.unsigned index
  | .localSet index => 0x21 :: Leb128.unsigned index
  | .load size offset => loadCode size :: Leb128.unsigned size.log2 ++ Leb128.unsigned offset
  | .store size offset => storeCode size :: Leb128.unsigned size.log2 ++ Leb128.unsigned offset
  | .i32Const value => 0x41 :: Leb128.signed value.toInt32.toInt
  | .i64Const value => 0x42 :: Leb128.signed value.toInt64.toInt
  | .eqz64 => [0x50]
  | .rel .w32 op => [UInt8.ofNat (0x46 + op.code)]
  | .rel .w64 op => [UInt8.ofNat (0x51 + op.code)]
  | .bin .w32 op => [UInt8.ofNat (0x6a + op.code)]
  | .bin .w64 op => [UInt8.ofNat (0x7c + op.code)]
  | .wrap => [0xa7]
  | .extendU => [0xad]

/-- The bytes of instructions in order. -/
def encodeAll : List Instruction → List UInt8
  | [] => []
  | i :: rest => encode i ++ encodeAll rest

end

end Instruction

end Dynarec.Wasm
