/-
Lane shapes: how the values of one name relate when several iterations run side
by side.

Shapes are joined where control flow meets: `unknown` gives way, equal shapes
stay, and anything else is `varying`.
-/
import LoopLanes.Recurrence.Kind

namespace LoopLanes

/-- The relation between the lanes of a value. -/
inductive LaneShape
  | unknown
  | uniform
  /-- lane `k` holds the value of lane 0 plus `k` times the stride -/
  | strided (stride : Int)
  | varying
  /-- a partial result per lane, combined where the loop is left -/
  | partials (kind : RedKind)
  deriving DecidableEq, Inhabited, Repr

namespace LaneShape

/-- The shape of a stride; no stride means that all lanes agree. -/
def ofStride (s : Int) : LaneShape := if s = 0 then uniform else strided s

/-- The shape of a value that is one or the other. -/
def join : LaneShape → LaneShape → LaneShape
  | unknown, s | s, unknown => s
  | a, b => if a = b then a else varying

/-- Whether anything is known. -/
def isDefined (s : LaneShape) : Bool := s ≠ unknown

/-- Whether all lanes agree. -/
def isUniform (s : LaneShape) : Bool := s = uniform

/-- Whether the value needs a register lane per iteration. -/
def isVector : LaneShape → Bool
  | varying | partials _ => true
  | _ => false

/-- The distance between neighbouring lanes. -/
def stride? : LaneShape → Option Int
  | uniform => some 0
  | strided s => some s
  | _ => none

/-- A shape as shown. -/
def text : LaneShape → String
  | unknown => "undef"
  | uniform => "uniform"
  | strided s => s!"strided({s})"
  | varying => "varying"
  | partials k => s!"private({k.text})"

/-- The shape with the given text. -/
def ofText? (s : String) : Option LaneShape :=
  let name := s.toList.takeWhile (· != '(')
  let rest := s.toList.drop name.length
  let argument := String.ofList (rest.drop 1).dropLast
  match String.ofList name, rest.getLast? with
  | "undef", none => some unknown
  | "uniform", none => some uniform
  | "varying", none => some varying
  | "strided", some ')' => (readI32 argument).toOption.map strided
  | "private", some ')' => (RedKind.ofText? argument).map partials
  | _, _ => none

theorem join_self (a : LaneShape) : a.join a = a := by
  cases a <;> simp [join]

theorem join_comm (a b : LaneShape) : a.join b = b.join a := by
  by_cases h : a = b
  · rw [h]
  · have h' : ¬ b = a := fun e => h e.symm
    cases a <;> cases b <;> simp_all [join]

theorem stride?_ofStride (s : Int) : (ofStride s).stride? = some s := by
  unfold ofStride
  split <;> simp_all [stride?]

end LaneShape

end LoopLanes
