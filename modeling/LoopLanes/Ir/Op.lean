/-
Operators: arithmetic, comparison predicates and the two kinds of comparison.

`CompOp.swap` exchanges the operands of a predicate and `CompOp.inverse`
negates it; both are involutions.
-/
import LoopLanes.Ir.Type

namespace LoopLanes

/-- Arithmetic operators: two's complement integers, singles, shifts and bits. -/
inductive ArithOp
  | add | sub | div | mul | rem
  | fadd | fsub | fdiv | fmul
  | shl | lshr | ashr
  | and | or | xor
  deriving DecidableEq, Hashable, Inhabited, Repr

/-- Comparison predicates: signed integers, then ordered floats. -/
inductive CompOp
  | eq | ne | sgt | sge | slt | sle
  | oeq | one | ogt | oge | olt | ole
  deriving DecidableEq, Hashable, Inhabited, Repr

/-- Which operands a comparison takes. -/
inductive CompKind
  | icmp | fcmp
  deriving DecidableEq, Hashable, Inhabited, Repr

namespace ArithOp

/-- The mnemonic of an operator. -/
def text : ArithOp → String
  | add => "add" | sub => "sub" | div => "sdiv" | mul => "mul" | rem => "srem"
  | fadd => "fadd" | fsub => "fsub" | fdiv => "fdiv" | fmul => "fmul"
  | shl => "shl" | lshr => "lshr" | ashr => "ashr"
  | and => "and" | or => "or" | xor => "xor"

/-- Every operator. -/
def all : List ArithOp :=
  [add, sub, mul, div, rem, fadd, fsub, fmul, fdiv, shl, lshr, ashr, and, or, xor]

/-- The operator with the given mnemonic. -/
def ofText? (s : String) : Option ArithOp := all.find? (·.text == s)

/-- The operands may change places. -/
def isCommutative : ArithOp → Bool
  | add | mul | fadd | fmul | and | or | xor => true
  | _ => false

/-- The type of both operands and of the result. -/
def operandTy : ArithOp → Ty
  | fadd | fsub | fdiv | fmul => .f32
  | _ => .i32

theorem ofText?_text (op : ArithOp) : ofText? op.text = some op := by
  cases op <;> decide

end ArithOp

namespace CompOp

/-- The mnemonic of a predicate. -/
def text : CompOp → String
  | eq => "eq" | ne => "ne" | sgt => "sgt" | sge => "sge" | slt => "slt" | sle => "sle"
  | oeq => "oeq" | one => "one" | ogt => "ogt" | oge => "oge" | olt => "olt" | ole => "ole"

/-- Every predicate. -/
def all : List CompOp :=
  [eq, ne, sgt, sge, slt, sle, oeq, one, ogt, oge, olt, ole]

/-- The predicate with the given mnemonic. -/
def ofText? (s : String) : Option CompOp := all.find? (·.text == s)

/-- The predicate that holds of `(b, a)` whenever this one holds of `(a, b)`. -/
def swap : CompOp → CompOp
  | sgt => slt | sge => sle | slt => sgt | sle => sge
  | ogt => olt | oge => ole | olt => ogt | ole => oge
  | op => op

/-- The negation of an integer predicate; ordered predicates are paired in the
same way. -/
def inverse : CompOp → CompOp
  | eq => ne | ne => eq | sgt => sle | sge => slt | slt => sge | sle => sgt
  | oeq => one | one => oeq | ogt => ole | oge => olt | olt => oge | ole => ogt

/-- The type of both operands. -/
def operandTy : CompOp → Ty
  | eq | ne | sgt | sge | slt | sle => .i32
  | _ => .f32

theorem ofText?_text (op : CompOp) : ofText? op.text = some op := by
  cases op <;> decide

theorem swap_swap (op : CompOp) : op.swap.swap = op := by cases op <;> rfl

theorem inverse_inverse (op : CompOp) : op.inverse.inverse = op := by cases op <;> rfl

end CompOp

namespace CompKind

/-- The mnemonic of a kind of comparison. -/
def text : CompKind → String
  | icmp => "icmp"
  | fcmp => "fcmp"

/-- The type of the operands compared. -/
def operandTy : CompKind → Ty
  | icmp => .i32
  | fcmp => .f32

end CompKind

end LoopLanes
