/-!
# Command-line arguments

Arguments are options and plain arguments. An option is given by its name after two dashes, or some
by a letter after one dash; its value follows an equals sign or is the next argument, which then
must not start with a dash. After two dashes alone all arguments are plain.
-/

namespace Dynarec.Cli

/-- Why a command line is not understood. -/
inductive UsageError where
  | missingCommand
  | unknownCommand (name : String)
  | unknownOption (name : String)
  | unexpectedArgument (text : String)
  | missingArgument (name : String)
  | missingValue (option : String)
  | unexpectedValue (option value : String)
  | repeatedOption (option : String)
  | invalidValue (option value reason : String)
  | conflict (option : String)
  deriving DecidableEq, Repr

/-- What is said to the user about a command line that is not understood. -/
def UsageError.message : UsageError → String
  | .missingCommand => "a command is required: disasm or run"
  | .unknownCommand name => s!"unrecognized command '{name}'"
  | .unknownOption name => s!"unexpected option '{name}'"
  | .unexpectedArgument text => s!"unexpected argument '{text}'"
  | .missingArgument name => s!"the argument {name} is required"
  | .missingValue option => s!"a value is required for '--{option}'"
  | .unexpectedValue option value => s!"unexpected value '{value}' for '--{option}'"
  | .repeatedOption option => s!"'--{option}' cannot be used multiple times"
  | .invalidValue option value reason => s!"invalid value '{value}' for {option}: {reason}"
  | .conflict option => s!"'--{option}' cannot be used with other arguments"

/-- What an option takes: nothing, one value, or a value each time it is given. -/
inductive Arity where
  | flag
  | value
  | values
  deriving DecidableEq, Repr

/-- An option that a command knows. -/
structure OptionSpec where
  name : String
  letter : Option Char
  arity : Arity
  deriving DecidableEq, Repr

/-- One argument as it was meant. -/
inductive Argument where
  | option (name : String) (value : Option String)
  | plain (text : String)
  deriving DecidableEq, Repr

/-- How an argument looks. -/
inductive Look where
  | endOfOptions
  | long (name : String) (value : Option String)
  | letters (letters : List Char)
  | plain
  deriving DecidableEq, Repr

/-- How an argument looks; a dash alone is plain. -/
def Look.of (arg : String) : Look :=
  match arg.toList with
  | ['-', '-'] => .endOfOptions
  | '-' :: '-' :: rest =>
    let name := rest.takeWhile (· != '=')
    .long (String.ofList name)
      (if name.length < rest.length then some (String.ofList (rest.drop (name.length + 1)))
      else none)
  | '-' :: c :: rest => .letters (c :: rest)
  | _ => .plain

/-- The options that a group of letters gives; only flags have letters. -/
def ofLetters (specs : List OptionSpec) (letters : List Char) :
    Except UsageError (List Argument) :=
  letters.mapM fun c =>
    match specs.find? (·.letter == some c) with
    | some spec => .ok (.option spec.name none)
    | none => .error (.unknownOption (String.ofList ['-', c]))

/-- What the arguments mean, from left to right. -/
def scan (specs : List OptionSpec) : List String → Except UsageError (List Argument)
  | [] => .ok []
  | arg :: rest =>
    match Look.of arg with
    | .endOfOptions => .ok (rest.map .plain)
    | .plain => do return .plain arg :: (← scan specs rest)
    | .letters letters => do return (← ofLetters specs letters) ++ (← scan specs rest)
    | .long name value =>
      match specs.find? (·.name == name), value with
      | none, _ => .error (.unknownOption ("--" ++ name))
      | some ⟨_, _, .flag⟩, none => do return .option name none :: (← scan specs rest)
      | some ⟨_, _, .flag⟩, some value => .error (.unexpectedValue name value)
      | some _, some value => do return .option name (some value) :: (← scan specs rest)
      | some _, none =>
        match rest with
        | value :: rest =>
          if Look.of value = .plain then do
            return .option name (some value) :: (← scan specs rest)
          else .error (.missingValue name)
        | [] => .error (.missingValue name)

/-- Whether an argument gives an option. -/
def Argument.gives (name : String) : Argument → Bool
  | .option n _ => n == name
  | .plain _ => false

/-- The values given for an option. -/
def optionValues (args : List Argument) (name : String) : List String :=
  args.filterMap fun
    | .option n value => if n = name then value else none
    | .plain _ => none

/-- The plain arguments. -/
def plainArguments (args : List Argument) : List String :=
  args.filterMap fun
    | .plain text => some text
    | .option .. => none

/-- Understand arguments, of which no option that takes at most one value may be repeated. -/
def readArguments (specs : List OptionSpec) (args : List String) :
    Except UsageError (List Argument) := do
  let args ← scan specs args
  match specs.find? fun spec => spec.arity != .values && 1 < args.countP (·.gives spec.name) with
  | some spec => .error (.repeatedOption spec.name)
  | none => .ok args

end Dynarec.Cli
