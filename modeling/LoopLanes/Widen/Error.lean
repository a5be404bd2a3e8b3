/-
Why a prepared loop cannot be turned into vector code.
-/
import LoopLanes.Ir.Label
import LoopLanes.Ir.Temp
import LoopLanes.Recurrence.Kind

namespace LoopLanes

/-- A failure to widen a loop. -/
inductive WidenError
  | noBody
  | nestedLoop
  | notLatch (block : Label)
  | branchesLeft
  | escapes (temp : Temp)
  | noPreheader
  | exitNotInHeader
  | noReduction (kind : RedKind) (ty : Ty)
  | unknownBlock (block : Label)
  deriving DecidableEq

/-- The wording of each cause. -/
def WidenError.message : WidenError → String
  | noBody => "the loop has no body"
  | nestedLoop => "divergent control flow inside a nested loop"
  | notLatch b => s!"{b.name} is not the latch"
  | branchesLeft => "varying branches left after linearization"
  | escapes t => s!"varying value {t.text} escapes the loop"
  | noPreheader => "the loop has no preheader"
  | exitNotInHeader => "the loop does not exit from its header"
  | noReduction k ty => s!"no {k.text} reduction over {ty.text}"
  | unknownBlock b => s!"unknown block {b.name}"

end LoopLanes
