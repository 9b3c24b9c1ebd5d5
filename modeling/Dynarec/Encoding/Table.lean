import Dynarec.Encoding.Pattern

/-!
# Decode tables

A decode table lists patterns with what they stand for; the first entry whose pattern accepts a
word wins. Bits 28 to 25 of a word choose one of sixteen buckets, which holds the entries whose
fixed bits allow that choice in their order in the table, so looking in the bucket finds the same
entry as looking through the whole table.
-/

namespace Dynarec.Encoding

/-- No entry of a decode table accepts the word. -/
inductive DecodeError where
  | invalidEncoding (word : UInt32)
  deriving DecidableEq, Repr

/-- What is said to the user about a word that is in no table. -/
def DecodeError.message : DecodeError → String
  | .invalidEncoding word => "invalid instruction encoding " ++ Text.hexPadded 8 word.toNat

/-- Patterns with what they stand for, in order of priority. -/
structure Table (α : Type) where
  entries : List (Pattern × α)
  buckets : Vector (List (Pattern × α)) 16

namespace Table

variable {α : Type}

/-- The bits that choose a bucket. -/
def bucketMask : UInt32 := 0x1e000000

/-- The word whose bucket bits are a key and whose other bits are clear. -/
def keyBits (key : Nat) : UInt32 := UInt32.ofNat key <<< 25

/-- The bucket of a word. -/
def key (word : UInt32) : Fin 16 := Fin.ofNat 16 ((word &&& bucketMask) >>> 25).toNat

/-- Whether some word of a bucket can have the fixed bits of a pattern. -/
def compatible (key : Nat) (p : Pattern) : Bool :=
  keyBits key &&& (p.mask &&& bucketMask) == p.value &&& (p.mask &&& bucketMask)

/-- The table of a list of entries. -/
def ofList (entries : List (Pattern × α)) : Table α where
  entries := entries
  buckets := Vector.ofFn fun key : Fin 16 => entries.filter fun e => compatible key e.1

/-- The entry that accepts a word first in a list, with the word's field values. -/
def find (entries : List (Pattern × α)) (word : UInt32) : Except DecodeError (α × Fields) :=
  match entries.find? (·.1.accepts word) with
  | some (p, a) => .ok (a, p.extract word)
  | none => .error (.invalidEncoding word)

/-- Look a word up in its bucket. -/
def decode (t : Table α) (word : UInt32) : Except DecodeError (α × Fields) :=
  find t.buckets[key word] word

/-- Look a word up in the whole table. -/
def decodeLinear (t : Table α) (word : UInt32) : Except DecodeError (α × Fields) :=
  find t.entries word

end Table

end Dynarec.Encoding
