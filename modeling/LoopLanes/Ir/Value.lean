/-
Operands of instructions: integer and float constants, and temporaries.
-/
import LoopLanes.Ir.Temp
import LoopLanes.Decimal.Binary32

namespace LoopLanes

/-- An operand. -/
inductive Value
  | int (v : Int32)
  | float (v : Float32)
  | temp (t : Temp)
  deriving DecidableEq

instance : Inhabited Value := ⟨.int 0⟩

namespace Value

/-- The type of an operand; integer constants are never pointers. -/
def ty : Value → Ty
  | int _ => .i32
  | float _ => .f32
  | temp t => t.ty

/-- The temporary an operand reads. -/
def temp? : Value → Option Temp
  | temp t => some t
  | _ => none

/-- The number of an integer constant. -/
def int? : Value → Option Int
  | int v => some v.toInt
  | _ => none

/-- Constants read no temporary. -/
def isConst (v : Value) : Bool := v.temp?.isNone

/-- Whether the operand is this temporary. -/
def isTemp (v : Value) (t : Temp) : Bool := v.temp? == some t

/-- The integer constant of a number; numbers outside the word wrap. -/
def ofInt (n : Int) : Value := int (Int32.ofInt n)

/-- The spelling of an operand, without its type. -/
def text : Value → String
  | int v => toString v.toInt
  | float v => Binary32.constantText v
  | temp t => t.text

/-- Equality of operands as numbers: floats compare as floats, so a NaN
differs from itself and the two zeros agree. -/
def same : Value → Value → Bool
  | int a, int b => a == b
  | float a, float b => a == b
  | temp a, temp b => a == b
  | _, _ => false

/-- Puts the value a temporary stands for in its place. -/
def subst (σ : Temp → Option Value) : Value → Value
  | temp t => (σ t).getD (temp t)
  | v => v

/-- Renames the temporary an operand reads. -/
def rename (ρ : Temp → Temp) : Value → Value
  | temp t => temp (ρ t)
  | v => v

end Value

end LoopLanes
