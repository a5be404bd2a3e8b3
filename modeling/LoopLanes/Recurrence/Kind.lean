/-
Kinds of recurrences that can be split over lanes.

The kinds form a flat order between `bot`, which absorbs everything, and `top`,
the join of different operators.  Each kind in between has an operator to
combine partial results and, for most types, an identity to start them from.
-/
import LoopLanes.Ir.Value
import LoopLanes.Ir.Op

namespace LoopLanes

/-- The operator of an associative recurrence. -/
inductive RedKind
  /-- no associative recurrence -/
  | bot
  | add
  | mul
  | and
  | or
  | xor
  /-- several operators feed the same phi -/
  | top
  deriving DecidableEq, Inhabited, Repr

namespace RedKind

/-- The name of a kind. -/
def text : RedKind → String
  | bot => "bot" | add => "add" | mul => "mul" | and => "and" | or => "or" | xor => "xor"
  | top => "top"

/-- Every kind. -/
def all : List RedKind := [bot, add, mul, and, or, xor, top]

/-- The kind with the given name. -/
def ofText? (s : String) : Option RedKind := all.find? (·.text == s)

/-- The kind that an operator gives rise to. -/
def ofOp : ArithOp → RedKind
  | .add | .fadd => add
  | .mul | .fmul => mul
  | .and => and
  | .or => or
  | .xor => xor
  | _ => bot

/-- The kind of a recurrence with parts of two kinds. -/
def join (a b : RedKind) : RedKind :=
  if a = bot ∨ b = bot then bot else if a = b then a else top

/-- Whether partial results can be kept per lane. -/
def isSupported : RedKind → Bool
  | bot | top => false
  | _ => true

/-- The operator that combines two partial results. -/
def arithOp? (k : RedKind) (ty : Ty) : Option ArithOp :=
  match k, ty.isFloat with
  | add, false => some .add
  | add, true => some .fadd
  | mul, false => some .mul
  | mul, true => some .fmul
  | and, false => some .and
  | or, false => some .or
  | xor, false => some .xor
  | _, _ => none

/-- The value that leaves the other operand as it is. -/
def identity? : RedKind → Ty → Option Value
  | add, .i32 => some (.int 0)
  | add, .f32 => some (.float 0)
  | mul, .i32 => some (.int 1)
  | mul, .f32 => some (.float 1)
  | and, .i32 => some (.int (-1))
  | or, .i32 | xor, .i32 => some (.int 0)
  | _, _ => none

theorem join_comm (a b : RedKind) : a.join b = b.join a := by
  cases a <;> cases b <;> rfl

theorem join_assoc (a b c : RedKind) : (a.join b).join c = a.join (b.join c) := by
  cases a <;> cases b <;> cases c <;> rfl

theorem join_self (a : RedKind) : a.join a = a := by cases a <;> rfl

end RedKind

end LoopLanes
