import Mathlib.Algebra.Group.Nat.Defs
import Dynarec.Wasm.Module

/-!
# Validation

When a module is valid, by the typing rules of the standard for the instructions used here. A stack
type lists the top of the stack first, and a rule shows the part of the stack below what the
instruction takes, which stays as it is. An instruction that never goes on, like a branch, may claim
any stack after it. Inside a construct the stack starts empty.
-/

namespace Dynarec.Wasm

/-- A function type, as parameters and results. -/
abbrev FunctionType : Type := List ValType × List ValType

/-- The types of what instructions refer to: the locals with the parameters first, the functions,
what a branch to each construct around takes, and what the function returns. -/
structure Scope where
  locals : List ValType
  functions : List FunctionType
  labels : List (List ValType)
  results : List ValType

/-- The scope inside a construct that branches reach with nothing on the stack. -/
def Scope.enter (Γ : Scope) : Scope := { Γ with labels := [] :: Γ.labels }

/-- The type of the numbers of a width. -/
def ValType.ofWidth : Width → ValType
  | .w32 => .i32
  | .w64 => .i64

mutual

/-- An instruction takes a stack of one type to a stack of another. -/
inductive Instruction.Typed : Scope → Instruction → List ValType → List ValType → Prop where
  | unreachable {Γ s u} : Typed Γ .unreachable s u
  | block {Γ inner s} : AllTyped Γ.enter inner [] [] → Typed Γ (.block inner) s s
  | loop {Γ inner s} : AllTyped Γ.enter inner [] [] → Typed Γ (.loop inner) s s
  | ifThen {Γ yes s} : AllTyped Γ.enter yes [] [] → Typed Γ (.ifThen yes) (.i32 :: s) s
  | ifElse {Γ yes no s} :
    AllTyped Γ.enter yes [] [] → AllTyped Γ.enter no [] [] →
    Typed Γ (.ifElse false yes no) (.i32 :: s) s
  | ifElseValue {Γ yes no s} :
    AllTyped { Γ with labels := [.i64] :: Γ.labels } yes [] [.i64] →
    AllTyped { Γ with labels := [.i64] :: Γ.labels } no [] [.i64] →
    Typed Γ (.ifElse true yes no) (.i32 :: s) (.i64 :: s)
  | br {Γ depth takes s u} :
    Γ.labels[depth]? = some takes → Typed Γ (.br depth) (takes ++ s) u
  | ret {Γ s u} : Typed Γ .ret (Γ.results ++ s) u
  | call {Γ function params results s} :
    Γ.functions[function]? = some (params, results) →
    Typed Γ (.call function) (params.reverse ++ s) (results.reverse ++ s)
  | drop {Γ t s} : Typed Γ .drop (t :: s) s
  | select {Γ t s} : Typed Γ .select (.i32 :: t :: t :: s) (t :: s)
  | localGet {Γ index t s} :
    Γ.locals[index]? = some t → Typed Γ (.localGet index) s (t :: s)
  | localSet {Γ index t s} :
    Γ.locals[index]? = some t → Typed Γ (.localSet index) (t :: s) s
  -- An access must not claim a larger alignment than its size.
  | load {Γ size offset s} :
    2 ^ size.log2 ≤ size.bytes → offset < 2 ^ 32 →
    Typed Γ (.load size offset) (.i32 :: s) (.i64 :: s)
  | store {Γ size offset s} :
    2 ^ size.log2 ≤ size.bytes → offset < 2 ^ 32 →
    Typed Γ (.store size offset) (.i64 :: .i32 :: s) s
  | i32Const {Γ value s} : Typed Γ (.i32Const value) s (.i32 :: s)
  | i64Const {Γ value s} : Typed Γ (.i64Const value) s (.i64 :: s)
  | eqz64 {Γ s} : Typed Γ .eqz64 (.i64 :: s) (.i32 :: s)
  | rel {Γ width op s} :
    Typed Γ (.rel width op) (.ofWidth width :: .ofWidth width :: s) (.i32 :: s)
  | bin {Γ width op s} :
    Typed Γ (.bin width op) (.ofWidth width :: .ofWidth width :: s) (.ofWidth width :: s)
  | wrap {Γ s} : Typed Γ .wrap (.i64 :: s) (.i32 :: s)
  | extendU {Γ s} : Typed Γ .extendU (.i32 :: s) (.i64 :: s)

/-- Instructions in order take a stack of one type to a stack of another. -/
inductive Instruction.AllTyped : Scope → List Instruction → List ValType → List ValType → Prop where
  | nil {Γ s} : AllTyped Γ [] s s
  | cons {Γ i rest s t u} : Typed Γ i s t → AllTyped Γ rest t u → AllTyped Γ (i :: rest) s u

end

namespace Instruction

variable {Γ : Scope} {s t u : List ValType}

theorem AllTyped.append {first rest : List Instruction} (h : AllTyped Γ first s t)
    (hrest : AllTyped Γ rest t u) : AllTyped Γ (first ++ rest) s u := by
  induction first generalizing s with
  | nil => cases h with | nil => exact hrest
  | cons i first ih => cases h with | cons hi h => exact .cons hi (ih h)

theorem AllTyped.single {i : Instruction} (h : Typed Γ i s t) : AllTyped Γ [i] s t := .cons h .nil

end Instruction

namespace Module

/-- The most pages that a memory can have. -/
def pageLimit : Nat := 65536

/-- The types of all functions, imported ones first. -/
def functions (m : Module) : Option (List FunctionType) :=
  (m.imports.map Import.typeIndex ++ [runTypeIndex]).mapM fun index => functionTypes[index]?

/-- The types of the locals, without the parameters. -/
def localTypes (m : Module) : List ValType :=
  m.localGroups.flatMap fun (count, t) => List.replicate count t

/-- Validity of a module: its limits are in order, every type index is declared, the function that
it exports is the one it defines, and the code of that function has the function's type. -/
structure Valid (m : Module) : Prop where
  exported : m.exported = m.imports.length
  limits : m.memoryMin ≤ pageLimit ∧
    ∀ max, m.memoryMax = some max → m.memoryMin ≤ max ∧ max ≤ pageLimit
  code : ∃ functions params results,
    m.functions = some functions ∧ functions[m.exported]? = some (params, results) ∧
      functionTypes[runTypeIndex]? = some (params, results) ∧
      Instruction.AllTyped ⟨params ++ m.localTypes, functions, [results.reverse], results.reverse⟩
        m.body [] results.reverse

end Module

end Dynarec.Wasm
