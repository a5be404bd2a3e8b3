/-
Decimal integers of a bounded range, read from text.

`readInteger lo hi s` reads an optional sign and one or more ASCII digits and
accepts the value exactly when it lies in `[lo, hi]`.  A leading `-` is part
of the form only for ranges that reach below zero.  The digits are read from
the left, so a value that has left the range is reported before a bad
character further right.
-/
import LoopLanes.Basic.Word

namespace LoopLanes

/-- Why a text is not an integer of the wanted range. -/
inductive IntegerError
  | empty
  | invalidDigit
  | tooLarge
  | tooSmall
  deriving DecidableEq, Repr

/-- The wording of each cause. -/
def IntegerError.message : IntegerError → String
  | empty => "cannot parse integer from empty string"
  | invalidDigit => "invalid digit found in string"
  | tooLarge => "number too large to fit in target type"
  | tooSmall => "number too small to fit in target type"

/-- The value of an ASCII digit. -/
def digitValue? (c : Char) : Option Nat :=
  if '0' ≤ c ∧ c ≤ '9' then some (c.toNat - '0'.toNat) else none

/-- The number written by a list of digits, without any check. -/
def digitsValue (cs : List Char) : Nat :=
  cs.foldl (fun n c => 10 * n + (c.toNat - '0'.toNat)) 0

/-- Reads digits after the part whose absolute value is `acc`; `bound` is the
largest absolute value allowed and `passed` the error beyond it. -/
def readDigits (bound : Nat) (passed : IntegerError) :
    Nat → List Char → Except IntegerError Nat
  | acc, [] => .ok acc
  | acc, c :: cs =>
    match digitValue? c with
    | none => .error .invalidDigit
    | some d =>
      if 10 * acc + d ≤ bound then readDigits bound passed (10 * acc + d) cs
      else .error passed

/-- Reads a decimal integer in `[lo, hi]`, where `lo ≤ 0 ≤ hi`. -/
def readInteger (lo hi : Int) (s : List Char) : Except IntegerError Int :=
  match s with
  | [] => .error .empty
  | ['+'] | ['-'] => .error .invalidDigit
  | '+' :: ds => (readDigits hi.toNat .tooLarge 0 ds).map Int.ofNat
  | '-' :: ds =>
    if lo < 0 then
      (readDigits (-lo).toNat .tooSmall 0 ds).map fun n => -(n : Int)
    else .error .invalidDigit
  | ds => (readDigits hi.toNat .tooLarge 0 ds).map Int.ofNat

/-- Reads a signed 32-bit integer. -/
def readI32 (s : String) : Except IntegerError Int := readInteger i32Min i32Max s.toList

/-- Reads a signed 64-bit integer. -/
def readI64 (s : String) : Except IntegerError Int := readInteger i64Min i64Max s.toList

/-- Reads an unsigned 32-bit integer. -/
def readU32 (s : String) : Except IntegerError Nat :=
  (readInteger 0 u32Max s.toList).map Int.toNat

end LoopLanes
