import Dynarec.Cli.Arguments
import Dynarec.Text.Number
import Dynarec.Text.Quoted

/-!
# Commands

What a command line asks for: a listing of instruction words, or a run of an image.
-/

namespace Dynarec.Cli

/-- Where the words of a listing come from. -/
inductive WordSource where
  | given (words : List String)
  | image (path : String)
  deriving DecidableEq, Repr

/-- What a run is asked to do. The entry is the load address where none is given. -/
structure RunOptions where
  image : String
  loadAddr : UInt64
  entry : UInt64
  ramKib : Nat
  assignments : List String
  loopBudget : Option Nat
  moduleDir : Option String
  deriving DecidableEq, Repr

/-- What a command line asks for. -/
inductive Command where
  | list (source : WordSource) (base : UInt64)
  | run (options : RunOptions)
  deriving DecidableEq, Repr

namespace Command

/-- The option that every command knows. -/
def verbose : OptionSpec := ⟨"verbose", some 'v', .flag⟩

/-- The options of listings. -/
def listSpecs : List OptionSpec := [verbose, ⟨"image", none, .value⟩, ⟨"base", none, .value⟩]

/-- The options of runs. -/
def runSpecs : List OptionSpec :=
  [verbose, ⟨"load-addr", none, .value⟩, ⟨"entry", none, .value⟩, ⟨"ram-kib", none, .value⟩,
    ⟨"set", none, .values⟩, ⟨"loop-budget", none, .value⟩, ⟨"emit-wasm", none, .value⟩]

/-- What is said about a text that is not a number. -/
def invalidNumber (text : String) (e : Text.NumberError) : String :=
  "invalid number " ++ Text.quoted text ++ ": " ++ e.message

/-- An address or a register value in a text. -/
def readWord (text : String) : Except String UInt64 :=
  match Text.readLiteral 0x10000000000000000 text with
  | .ok n => .ok (UInt64.ofNat n)
  | .error e => .error (invalidNumber text e)

/-- A count in a text. -/
def readCount (text : String) : Except String Nat :=
  (Text.readNumber 10 0x10000000000000000 text.toList).mapError (·.message)

/-- A path in a text. -/
def readPath (text : String) : Except String String :=
  if text = "" then .error "a path is required" else .ok text

/-- The value of an option that may be given once. -/
def optionValue? {α : Type} (args : List Argument) (name : String)
    (read : String → Except String α) : Except UsageError (Option α) :=
  match optionValues args name with
  | [] => .ok none
  | text :: _ =>
    match read text with
    | .ok a => .ok (some a)
    | .error reason => .error (.invalidValue name text reason)

/-- The listing that arguments ask for. -/
def ofListArguments (args : List String) : Except UsageError Command := do
  let args ← readArguments listSpecs args
  let base ← optionValue? args "base" readWord
  match ← optionValue? args "image" readPath, plainArguments args with
  | none, words => return .list (.given words) (base.getD 0)
  | some path, [] => return .list (.image path) (base.getD 0)
  | some _, _ :: _ => throw (.conflict "image")

/-- The run that arguments ask for. -/
def ofRunArguments (args : List String) : Except UsageError Command := do
  let args ← readArguments runSpecs args
  let image ← match plainArguments args with
    | [] => throw (.missingArgument "IMAGE")
    | [text] => (readPath text).mapError (.invalidValue "IMAGE" text)
    | _ :: text :: _ => throw (.unexpectedArgument text)
  let loadAddr := (← optionValue? args "load-addr" readWord).getD 0x1000
  return .run
    { image
      loadAddr
      entry := (← optionValue? args "entry" readWord).getD loadAddr
      ramKib := (← optionValue? args "ram-kib" readCount).getD 1024
      assignments := optionValues args "set"
      loopBudget := ← optionValue? args "loop-budget" readCount
      moduleDir := ← optionValue? args "emit-wasm" readPath }

/-- What a command line asks for. The first plain argument is the name of the command. -/
def ofArguments (args : List String) : Except UsageError Command := do
  let (before, rest) := args.span (Look.of · != .plain)
  if before.contains "--" then throw (.unexpectedArgument "--")
  let _ ← readArguments [verbose] before
  match rest with
  | [] => throw .missingCommand
  | "disasm" :: rest => ofListArguments rest
  | "run" :: rest => ofRunArguments rest
  | name :: _ => throw (.unknownCommand name)

end Command

end Dynarec.Cli
