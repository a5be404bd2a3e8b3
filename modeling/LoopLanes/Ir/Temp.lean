/-
Temporaries, and the counter that names fresh ones.

Two temporaries are the same only if name, scope and type agree.  Fresh ones
are numbered; a reader of program text raises the counter past every numeric
name it meets (`TempCounter.reserve`), which keeps the numbers ahead of the
names in use.
-/
import LoopLanes.Ir.Type
import LoopLanes.Text.Integer
import LoopLanes.Basic.Sorting

namespace LoopLanes

/-- A named value of one function, or a global one. -/
structure Temp where
  name : String
  isGlobal : Bool
  ty : Ty
  deriving DecidableEq, Hashable, Inhabited, Repr

namespace Temp

/-- A temporary of the function at hand. -/
def ofLocal (name : String) (ty : Ty) : Temp := ⟨name, false, ty⟩

/-- The spelling of a temporary: `%name`, or `@name` for a global one. -/
def text (t : Temp) : String :=
  if t.isGlobal then "@" ++ t.name else "%" ++ t.name

/-- Sort order: by name, then local before global, then by type. -/
def le (a b : Temp) : Bool :=
  match compare a.name b.name with
  | .lt => true
  | .gt => false
  | .eq =>
    match compare a.isGlobal.toNat b.isGlobal.toNat with
    | .lt => true
    | .gt => false
    | .eq => a.ty.rank ≤ b.ty.rank

/-- Temporaries in sort order, each once. -/
def sorted (ts : List Temp) : List Temp := insertSort le ts.eraseDups

end Temp

/-- The number of the last fresh temporary handed out or passed over. -/
abbrev TempCounter := Nat

namespace TempCounter

/-- Hands out the next numbered temporary. -/
def fresh (n : TempCounter) (ty : Ty) (isGlobal : Bool) : Temp × TempCounter :=
  (⟨toString (n + 1), isGlobal, ty⟩, n + 1)

/-- Moves the counter past a name that reads as a number. -/
def reserve (n : TempCounter) (name : String) : TempCounter :=
  match readU32 name with
  | .ok id => max n id
  | .error _ => n

theorem le_reserve (n : TempCounter) (name : String) : n ≤ reserve n name := by
  unfold reserve
  split
  · exact Nat.le_max_left ..
  · exact Nat.le_refl _

end TempCounter

end LoopLanes
