/-
Value types of the intermediate representation.

Two scalar types, a pointer type to each of them and `void`.  `deref` and
`toPtr` go between a scalar and its pointer and answer `void` wherever there
is nothing to go to, so that a type check against their answer simply fails.
-/

namespace LoopLanes

/-- The type of a value: a 32-bit integer, a single-precision number, a
pointer to either, or nothing. -/
inductive Ty
  | i32
  | f32
  | i32Ptr
  | f32Ptr
  | void
  deriving DecidableEq, Hashable, Inhabited, Repr

namespace Ty

/-- The spelling of a type in program text. -/
def text : Ty → String
  | i32 => "i32"
  | f32 => "f32"
  | i32Ptr => "i32*"
  | f32Ptr => "f32*"
  | void => "void"

/-- Every type, in the order used to sort temporaries. -/
def all : List Ty := [i32, f32, i32Ptr, f32Ptr, void]

/-- The type with the given spelling. -/
def ofText? (s : String) : Option Ty :=
  all.find? (·.text == s)

/-- Position of a type in `all`. -/
def rank : Ty → Nat
  | i32 => 0
  | f32 => 1
  | i32Ptr => 2
  | f32Ptr => 3
  | void => 4

/-- Pointers address elements of one scalar type. -/
def isPtr : Ty → Bool
  | i32Ptr | f32Ptr => true
  | _ => false

/-- Only the scalar `f32` counts as a float, not the pointer to it. -/
def isFloat : Ty → Bool
  | f32 => true
  | _ => false

/-- The element type of a pointer. -/
def deref : Ty → Ty
  | i32Ptr => i32
  | f32Ptr => f32
  | _ => void

/-- The pointer type of a scalar. -/
def toPtr : Ty → Ty
  | i32 => i32Ptr
  | f32 => f32Ptr
  | _ => void

/-- Width in bits of one lane that holds a value of this type. -/
def bits : Ty → Nat
  | i32 | f32 => 32
  | i32Ptr | f32Ptr => 64
  | void => 0

theorem ofText?_text (t : Ty) : ofText? t.text = some t := by
  cases t <;> decide

theorem deref_toPtr {t : Ty} (h : t.toPtr ≠ void) : t.toPtr.deref = t := by
  cases t <;> simp_all [toPtr, deref]

end Ty

end LoopLanes
