/-
Settings of a run, and how they are read from variables.
-/
import LoopLanes.Cost.Model
import LoopLanes.Text.Blank
import LoopLanes.Text.Integer

namespace LoopLanes

/-- Settings; none of them changes during a run. -/
structure Config where
  /-- fixes the width of every loop and asks no cost model -/
  forceWidth : Option Nat
  disabled : Bool
  diagnostics : Bool
  printFunction : Bool
  maxVectorBits : Nat
  /-- stop once a loop is prepared and leave its body scalar -/
  emitPrepared : Bool
  deriving DecidableEq, Repr

/-- Why settings are refused. -/
inductive ConfigError
  | badWidth (text : String)
  | badVectorBits (bits : Nat)
  deriving DecidableEq, Repr

/-- The wording of each cause. -/
def ConfigError.message : ConfigError → String
  | badWidth s =>
    s!"invalid configuration: vector width must be an integer in 1..={maxVectorWidth}, " ++
      s!"got \x60{s}\x60"
  | badVectorBits n =>
    s!"invalid configuration: max vector bits must be a power of two of at least 32, got {n}"

namespace Config

/-! ### Variables -/

/-- The variable that fixes the width. -/
def forceWidthVar : String := "RV_FORCE_WIDTH"
/-- The variable that switches vectorizing off. -/
def disableVar : String := "RV_DISABLE"
/-- The variable that asks for diagnostics. -/
def diagnosticsVar : String := "LV_DIAG"
/-- The variable that asks for each function to be shown. -/
def printFunctionVar : String := "RV_PRINT_FUNCTION"

/-- Settings where nothing is said. -/
def standard : Config := ⟨none, false, false, false, defaultMaxVectorBits, false⟩

/-- Whether the value of a variable means yes. -/
def isSet (value : Option String) : Bool :=
  value.any fun v => Text.trim v ∉ ["", "0", "false"]

/-- Reads a width. -/
def readWidth (s : String) : Except ConfigError Nat :=
  match readU32 (Text.trim s) with
  | .ok w => if 1 ≤ w ∧ w ≤ maxVectorWidth then .ok w else .error (.badWidth s)
  | .error _ => .error (.badWidth s)

/-- Reads settings from variables. -/
def ofVars (get : String → Option String) : Except ConfigError Config := do
  let width ← (get forceWidthVar).mapM readWidth
  return { standard with
    forceWidth := width
    disabled := isSet (get disableVar)
    diagnostics := isSet (get diagnosticsVar)
    printFunction := isSet (get printFunctionVar) }

/-- Settings from variables; the standard ones where these cannot be read. -/
def ofVarsOrStandard (get : String → Option String) : Config :=
  match ofVars get with
  | .ok c => c
  | .error _ => standard

/-- The settings that matter for the code, in one line. -/
def text (c : Config) : String :=
  let width := (c.forceWidth.map fun w => s!", forced width = {w}").getD ""
  s!"max vector bits = {c.maxVectorBits}" ++ width ++
    (if c.emitPrepared then ", prepare only" else "")

end Config

end LoopLanes
