/-
Run-time values of one lane, and what operators do to them.

Integers are two's complement words that wrap; shifts take their amount modulo
the word size.  Pointers are places in memory, counted in elements; a place is
an unsigned word of 64 bits, and errors show it as a signed one.
-/
import LoopLanes.Basic.Word
import LoopLanes.Ir.Value
import LoopLanes.Ir.Op

namespace LoopLanes

/-- The value of one lane. -/
inductive Cell
  | int (v : Int32)
  | float (v : Float32)
  | ptr (place : Nat)
  deriving DecidableEq

/-- The value of a lane in which nothing was computed. -/
instance : Inhabited Cell := ⟨.int 0⟩

/-- Why a run fails. -/
inductive RunError
  | unknownFunction (name : String)
  | unknownBlock (name : String)
  | undefinedTemp (text : String)
  | typeMismatch (expected : String) (found : Cell)
  | outOfBounds (place : Int)
  | divisionByZero
  | divergentValue
  | stepLimit (limit : Nat)
  | unsupported (what : String)
  deriving DecidableEq

/-- The failure to find a place in memory. -/
def RunError.notInMemory (place : Nat) : RunError := .outOfBounds (wrapI64 place)

namespace Cell

/-- A value with its kind, as shown in messages. -/
def text : Cell → String
  | int v => s!"Int({v.toInt})"
  | float v => s!"Float({Binary32.constantText v})"
  | ptr p => s!"Ptr({p})"

/-- Equality as numbers: a NaN differs from itself, the two zeros agree. -/
def same : Cell → Cell → Bool
  | int a, int b => a == b
  | float a, float b => a == b
  | ptr a, ptr b => a == b
  | _, _ => false

/-- The number of an integer. -/
def toInt32 : Cell → Except RunError Int32
  | int v => .ok v
  | v => .error (.typeMismatch "i32" v)

/-- The number of a float. -/
def toFloat32 : Cell → Except RunError Float32
  | float v => .ok v
  | v => .error (.typeMismatch "f32" v)

/-- The place of a pointer. -/
def toPlace : Cell → Except RunError Nat
  | ptr p => .ok p
  | v => .error (.typeMismatch "pointer" v)

/-- What a branch or a mask takes for true. -/
def isTrue : Cell → Bool
  | int v => v != 0
  | float v => !(v == 0)
  | ptr _ => true

/-- Moves an integer or a pointer; a pointer may not move below zero, nor past
the last place that a signed word holds. -/
def offset (v : Cell) (delta : Int) : Except RunError Cell :=
  match v with
  | int n => .ok (int (n + Int32.ofInt delta))
  | ptr p =>
    let target := wrapI64 (p + delta)
    if target < 0 then .error (.outOfBounds target) else .ok (ptr target.toNat)
  | v => .error (.typeMismatch "i32 or pointer" v)

/-- An integer operator on two values. -/
def onInts (g : Int32 → Int32 → Int32) (a b : Cell) : Except RunError Cell := do
  return int (g (← a.toInt32) (← b.toInt32))

/-- A float operator on two values. -/
def onFloats (g : Float32 → Float32 → Float32) (a b : Cell) : Except RunError Cell := do
  return float (g (← a.toFloat32) (← b.toFloat32))

/-- The logical shift to the right. -/
def shiftRightLogical (a b : Int32) : Int32 := (a.toUInt32 >>> b.toUInt32).toInt32

/-- The result of an arithmetic operator.  A zero divisor is found before the
types of the operands are looked at. -/
def arith (op : ArithOp) (a b : Cell) : Except RunError Cell :=
  match op with
  | .add => onInts (· + ·) a b
  | .sub => onInts (· - ·) a b
  | .mul => onInts (· * ·) a b
  | .div => if b = int 0 then .error .divisionByZero else onInts (· / ·) a b
  | .rem => if b = int 0 then .error .divisionByZero else onInts (· % ·) a b
  | .shl => onInts (· <<< ·) a b
  | .lshr => onInts shiftRightLogical a b
  | .ashr => onInts (· >>> ·) a b
  | .and => onInts (· &&& ·) a b
  | .or => onInts (· ||| ·) a b
  | .xor => onInts (· ^^^ ·) a b
  | .fadd => onFloats (· + ·) a b
  | .fsub => onFloats (· - ·) a b
  | .fmul => onFloats (· * ·) a b
  | .fdiv => onFloats (· / ·) a b

/-- The truth value of a predicate on integers. -/
def testInts (g : Int32 → Int32 → Bool) (a b : Cell) : Except RunError Bool := do
  return g (← a.toInt32) (← b.toInt32)

/-- The truth value of a predicate on floats. -/
def testFloats (g : Float32 → Float32 → Bool) (a b : Cell) : Except RunError Bool := do
  return g (← a.toFloat32) (← b.toFloat32)

/-- Whether a predicate holds. -/
def test (op : CompOp) (a b : Cell) : Except RunError Bool :=
  match op with
  | .eq => testInts (· == ·) a b
  | .ne => testInts (· != ·) a b
  | .sgt => testInts (fun x y => y < x) a b
  | .sge => testInts (fun x y => y ≤ x) a b
  | .slt => testInts (fun x y => x < y) a b
  | .sle => testInts (fun x y => x ≤ y) a b
  | .oeq => testFloats (· == ·) a b
  | .one => testFloats (· != ·) a b
  | .ogt => testFloats (fun x y => y < x) a b
  | .oge => testFloats (fun x y => y ≤ x) a b
  | .olt => testFloats (fun x y => x < y) a b
  | .ole => testFloats (fun x y => x ≤ y) a b

/-- The result of a comparison: one or zero. -/
def compare (op : CompOp) (a b : Cell) : Except RunError Cell :=
  (test op a b).map fun r => int (if r then 1 else 0)

end Cell

/-- The wording of each cause. -/
def RunError.message : RunError → String
  | unknownFunction n => s!"no function named @{n}"
  | unknownBlock n => s!"jump to unknown block {n}"
  | undefinedTemp t => s!"{t} is read before it is written"
  | typeMismatch e v => s!"expected {e}, found {v.text}"
  | outOfBounds p => s!"memory access out of bounds at {p}"
  | divisionByZero => "division by zero"
  | divergentValue => "lanes disagree on a value that must be uniform"
  | stepLimit n => s!"step limit of {n} exceeded"
  | unsupported w => s!"can not simulate \x60{w}\x60"

end LoopLanes
