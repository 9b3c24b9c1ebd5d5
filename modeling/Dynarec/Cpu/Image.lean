import Dynarec.Cpu.State
import Dynarec.Word.Bytes

/-!
# Register image

Compiled code reaches the registers through an image in memory: the 68 words of the state in field
order, eight bytes each, least significant byte first. This module holds the order, the place of
each register in it, and the way to and from bytes.
-/

namespace Dynarec.Cpu.State

/-- Number of words in an image. -/
abbrev wordCount : Nat := 68

/-- Number of bytes in an image. -/
def byteSize : Nat := wordCount * 8

/-- Offset of the general registers. -/
def xBase : Nat := 0

/-- Offset of the stack pointers. -/
def spElBase : Nat := xBase + 31 * 8

/-- Offset of the exception return addresses. -/
def elrBase : Nat := spElBase + 4 * 8

/-- Offset of the saved statuses. -/
def spsrBase : Nat := elrBase + 3 * 8

/-- Offset of the flags. -/
def flagsBase : Nat := spsrBase + 3 * 8

/-- Offset of the exception level. -/
def elOffset : Nat := flagsBase + 4 * 8

/-- Offset of the stack selector. -/
def spselOffset : Nat := elOffset + 8

/-- Offset of the exception masks. -/
def daifOffset : Nat := spselOffset + 8

/-- Offset of the system-register storage. -/
def sysBase : Nat := daifOffset + 8

/-- Offset of a general register. -/
def xOffset (n : Nat) : Nat := xBase + n * 8

/-- Offset of a flag. -/
def flagOffset (f : Flag) : Nat := flagsBase + f.index * 8

/-- Offset of a word of system-register storage. -/
def sysOffset (slot : Nat) : Nat := sysBase + slot * 8

/-- The words of a state in image order. -/
def toWords (s : State) : Vector UInt64 wordCount :=
  s.x ++ s.spEl ++ s.elrEl ++ s.spsrEl ++ s.flags ++ #v[s.el, s.spsel, s.daif] ++ s.sys

/-- A run of words of an image. -/
def run (words : Vector UInt64 wordCount) (start len : Nat) (h : start + len ≤ wordCount) :
    Vector UInt64 len :=
  Vector.ofFn fun i =>
    words.get ⟨start + i.val, Nat.lt_of_lt_of_le (Nat.add_lt_add_left i.isLt _) h⟩

/-- The state of the words of an image, taken as they are. -/
def ofWords (words : Vector UInt64 wordCount) : State where
  x := run words 0 31 (by decide)
  spEl := run words 31 4 (by decide)
  elrEl := run words 35 3 (by decide)
  spsrEl := run words 38 3 (by decide)
  flags := run words 41 4 (by decide)
  el := words[45]
  spsel := words[46]
  daif := words[47]
  sys := run words 48 SysReg.slotCount (by decide)

/-- The names of the words of an image. -/
def wordNames : List String :=
  (List.range 31).map (fun n => s!"x{n}") ++ (List.range 4).map (fun n => s!"sp_el{n}") ++
    (List.range 3).map (fun n => "elr" ++ toString (n + 1)) ++
    (List.range 3).map (fun n => "spsr" ++ toString (n + 1)) ++
    ["n", "z", "c", "v", "el", "spsel", "daif"] ++
    (List.range SysReg.slotCount).map (fun n => s!"sys{n}")

/-- The words of an image with their names. -/
def namedWords (s : State) : List (String × UInt64) := wordNames.zip s.toWords.toList

/-- The words in which a state differs from an earlier one, with their new values. -/
def changes (before after : State) : List (String × UInt64) :=
  ((before.namedWords.zip after.namedWords).filter fun (old, new) => old.2 != new.2).map Prod.snd

/-- Write the image of a state into a byte array. -/
def writeImage (s : State) (bytes : ByteArray) (base : Nat) : ByteArray :=
  (s.toWords.toList.zipIdx).foldl (fun bytes (w, i) => Bytes.writeWord bytes (base + i * 8) 8 w)
    bytes

/-- Read the state whose image is in a byte array. -/
def readImage (bytes : ByteArray) (base : Nat) : State :=
  ofWords (Vector.ofFn fun i => Bytes.readWord bytes (base + i.val * 8) 8)

end Dynarec.Cpu.State
