/-
The command line.

Options may stand anywhere; each is given at most once.  A value follows its
option as the next argument, or behind `=`, or, for `-o`, at once.  The next
argument is no value if it looks like an option; a single dash does not.
-/
import LoopLanes.Text.Integer

namespace LoopLanes

/-- The arguments of a command line. -/
structure Args where
  input : Option String
  output : Option String
  forceWidth : Option Nat
  disable : Bool
  diag : Bool
  printFunction : Bool
  maxVectorBits : Option Nat
  emitPrepared : Bool
  deriving DecidableEq, Repr

/-- Why a command line is not carried out. -/
inductive UsageExit
  | help
  | refused
  deriving DecidableEq, Repr

namespace Args

/-- A command line without arguments. -/
def empty : Args := ⟨none, none, none, false, false, false, none, false⟩

/-- An option of the command line. -/
inductive Opt
  | output | forceWidth | maxVectorBits
  | disable | diag | printFunction | emitPrepared
  deriving DecidableEq, Repr

/-- Options that take a value. -/
def Opt.takesValue : Opt → Bool
  | output | forceWidth | maxVectorBits => true
  | _ => false

/-- Options by their long names; `-o` has none. -/
def longOptions : List (String × Opt) :=
  [("force-width", .forceWidth), ("disable", .disable), ("diag", .diag),
   ("print-function", .printFunction), ("max-vector-bits", .maxVectorBits),
   ("emit-prepared", .emitPrepared)]

/-- Something that may be given once. -/
def once (old : Option α) (new : α) : Except UsageExit (Option α) :=
  if old.isSome then .error .refused else .ok (some new)

/-- A flag that may be given once. -/
def onceFlag (old : Bool) : Except UsageExit Bool :=
  if old then .error .refused else .ok true

/-- A number given as a value. -/
def number (s : String) : Except UsageExit Nat :=
  match readI64 s with
  | .ok n => if 0 ≤ n ∧ n ≤ u32Max then .ok n.toNat else .error .refused
  | .error _ => .error .refused

/-- Takes in an option with its value. -/
def setValue (a : Args) (o : Opt) (v : String) : Except UsageExit Args := do
  match o with
  | .output => return { a with output := ← once a.output v }
  | .forceWidth => return { a with forceWidth := ← once a.forceWidth (← number v) }
  | .maxVectorBits => return { a with maxVectorBits := ← once a.maxVectorBits (← number v) }
  | _ => .error .refused

/-- Takes in an option without a value. -/
def setFlag (a : Args) (o : Opt) : Except UsageExit Args := do
  match o with
  | .disable => return { a with disable := ← onceFlag a.disable }
  | .diag => return { a with diag := ← onceFlag a.diag }
  | .printFunction => return { a with printFunction := ← onceFlag a.printFunction }
  | .emitPrepared => return { a with emitPrepared := ← onceFlag a.emitPrepared }
  | _ => .error .refused

/-- Takes in the input. -/
def setInput (a : Args) (v : String) : Except UsageExit Args := do
  return { a with input := ← once a.input v }

/-- What one argument is. -/
inductive Word
  /-- everything behind this is input -/
  | ending
  | opt (o : Opt) (value : Option String)
  | help
  | input (s : String)
  | unknown
  deriving DecidableEq, Repr

/-- Classifies an argument. -/
def classify (s : String) : Word :=
  match s.toList with
  | ['-', '-'] => .ending
  | '-' :: '-' :: cs =>
    let name := String.ofList (cs.takeWhile (· != '='))
    let value :=
      match cs.dropWhile (· != '=') with
      | _ :: v => some (String.ofList v)
      | [] => none
    if name = "help" then if value.isNone then .help else .unknown
    else
      match longOptions.lookup name with
      | some o => .opt o value
      | none => .unknown
  | '-' :: 'o' :: cs =>
    match cs with
    | [] => .opt .output none
    | '=' :: v => .opt .output (some (String.ofList v))
    | v => .opt .output (some (String.ofList v))
  | '-' :: 'h' :: _ => .help
  | '-' :: _ :: _ => .unknown
  | _ => .input s

/-- Whether an argument can be the value of the option before it. -/
def isValue (s : String) : Bool :=
  match classify s with
  | .input _ => true
  | _ => false

/-- Takes in arguments one by one; behind `ending` all of them are input. -/
def readAll : Bool → List String → Args → Except UsageExit Args
  | _, [], a => .ok a
  | true, s :: rest, a => do readAll true rest (← a.setInput s)
  | false, s :: rest, a => do
    match classify s with
    | .ending => readAll true rest a
    | .help => .error .help
    | .unknown => .error .refused
    | .input s => readAll false rest (← a.setInput s)
    | .opt o (some v) => readAll false rest (← a.setValue o v)
    | .opt o none =>
      if o.takesValue then
        match rest with
        | v :: rest =>
          if isValue v then readAll false rest (← a.setValue o v) else .error .refused
        | [] => .error .refused
      else readAll false rest (← a.setFlag o)

/-- Reads a command line, the name of the program left out. -/
def read (args : List String) : Except UsageExit Args := readAll false args empty

end Args

end LoopLanes
