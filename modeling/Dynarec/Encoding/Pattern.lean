import Dynarec.Text.Blank
import Dynarec.Text.Number

/-!
# Encoding patterns

A pattern describes the 32 bits of an instruction word from the most significant bit down, as runs
of fixed bits and named fields such as `Rn:5`. A field may carry a constraint on its value; a word
matches when its fixed bits agree and every constrained field is admitted.
-/

namespace Dynarec.Encoding

/-- A set of values that a field must avoid or must belong to. -/
inductive Constraint where
  | exclude (values : List Nat)
  | only (values : List Nat)
  deriving DecidableEq, Repr

/-- Whether a field value satisfies a constraint. -/
def Constraint.admits : Constraint → Nat → Bool
  | .exclude values, v => !values.contains v
  | .only values, v => values.contains v

/-- A named run of `width` bits whose lowest bit is at position `lsb`. -/
structure Field where
  name : String
  lsb : Nat
  width : Nat
  constraint : Option Constraint
  deriving DecidableEq, Repr

namespace Field

/-- The value of a field in a word. -/
def extract (f : Field) (word : UInt32) : Nat := word.toNat >>> f.lsb % (1 <<< f.width)

/-- Whether the value of a field in a word satisfies the field's constraint. -/
def admits (f : Field) (word : UInt32) : Bool :=
  match f.constraint with
  | some c => c.admits (f.extract word)
  | none => true

end Field

/-- The values of the fields of one word, in the order of its pattern. -/
structure Fields where
  word : UInt32
  values : List (String × Nat)
  deriving DecidableEq, Repr

/-- The value of the field of a name, if the pattern declares one. -/
def Fields.get? (f : Fields) (name : String) : Option Nat := f.values.lookup name

/-- Why a pattern cannot be read or constrained. -/
inductive PatternError where
  | width (spec : String)
  | badToken (token : String)
  | duplicateField (name : String)
  | unknownField (name : String)
  deriving DecidableEq, Repr

/-- What is said to the user about a faulty pattern. -/
def PatternError.message : PatternError → String
  | .width spec => s!"pattern `{spec}` does not describe exactly 32 bits"
  | .badToken token => s!"unrecognized pattern token `{token}`"
  | .duplicateField name => s!"field `{name}` declared twice"
  | .unknownField name => s!"no field named `{name}` in pattern"

/-- Fixed bits, as a mask and their values, and fields. -/
structure Pattern where
  mask : UInt32
  value : UInt32
  fields : List Field
  deriving DecidableEq, Repr

/-- A pattern whose low `remaining` bits are not described yet. -/
structure Layout where
  remaining : Nat
  mask : UInt32
  value : UInt32
  fields : List Field

namespace Layout

/-- The layout that describes nothing. -/
def start : Layout := ⟨32, 0, 0, []⟩

/-- Describe the next bit as fixed. -/
def addBit (l : Layout) (bit : Bool) : Layout :=
  let place : UInt32 := 1 <<< UInt32.ofNat (l.remaining - 1)
  { l with
    remaining := l.remaining - 1
    mask := l.mask ||| place
    value := if bit then l.value ||| place else l.value }

/-- Describe the next `width` bits as a field. -/
def addField (l : Layout) (name : String) (width : Nat) : Layout :=
  let lsb := l.remaining - width
  { l with remaining := lsb, fields := l.fields ++ [⟨name, lsb, width, none⟩] }

/-- Describe the next bit by one character of a token. -/
def readBit (spec token : String) (l : Layout) (c : Char) : Except PatternError Layout := do
  let bit ← match c with
    | '0' => .ok false
    | '1' => .ok true
    | _ => .error (.badToken token)
  if l.remaining = 0 then .error (.width spec) else .ok (l.addBit bit)

/-- Describe the next bits by the name and the width text of a field token. -/
def readField (spec token : String) (l : Layout) (name width : List Char) :
    Except PatternError Layout :=
  match Text.readNumber 10 0x100000000 width with
  | .error _ => .error (.badToken token)
  | .ok width =>
    let name := String.ofList name
    if name.isEmpty ∨ width = 0 then .error (.badToken token)
    else if l.remaining < width then .error (.width spec)
    else if l.fields.any (·.name == name) then .error (.duplicateField name)
    else .ok (l.addField name width)

/-- Describe the next bits by a token: a field when it contains a colon, else fixed bits. -/
def readToken (spec : String) (l : Layout) (token : List Char) : Except PatternError Layout :=
  match token.span (· != ':') with
  | (name, _ :: width) => l.readField spec (String.ofList token) name width
  | (bits, []) => bits.foldlM (readBit spec (String.ofList token)) l

end Layout

namespace Pattern

/-- Read a pattern from its text. -/
def parse (spec : String) : Except PatternError Pattern := do
  let l ← (Text.words spec.toList).foldlM (Layout.readToken spec) .start
  if l.remaining = 0 then .ok ⟨l.mask, l.value, l.fields⟩ else .error (.width spec)

/-- Put a constraint on the field of a name, in the place of one that it had. -/
def constrain (p : Pattern) (name : String) (c : Constraint) : Except PatternError Pattern :=
  if p.fields.any (·.name == name) then
    .ok { p with
      fields := p.fields.map fun f => if f.name = name then { f with constraint := some c } else f }
  else .error (.unknownField name)

/-- Whether the fixed bits of a word are those of the pattern. -/
def fixedBitsMatch (p : Pattern) (word : UInt32) : Bool := word &&& p.mask == p.value

/-- Whether a word has the fixed bits and satisfies every constraint. -/
def accepts (p : Pattern) (word : UInt32) : Bool :=
  p.fixedBitsMatch word && p.fields.all (·.admits word)

/-- The field values of a word. -/
def extract (p : Pattern) (word : UInt32) : Fields :=
  ⟨word, p.fields.map fun f => (f.name, f.extract word)⟩

end Pattern

end Dynarec.Encoding
