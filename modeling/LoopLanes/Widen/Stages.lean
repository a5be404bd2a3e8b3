/-
The three stages from a prepared loop to vector code.

First the shapes of all values are found.  Where branches vary, the body is then
lined up and the shapes are found anew.  At last every instruction is widened.
-/
import LoopLanes.Widen.Linearize
import LoopLanes.Widen.Lanes

namespace LoopLanes

/-- A region between two stages, with the function it stands in. -/
structure Lowering where
  func : Func
  temps : TempCounter
  info : LaneInfo
  /-- the blocks whose branches vary -/
  branches : List Int

namespace Lowering

/-- Finds the shapes of all values. -/
def analyze (f : Func) (temps : TempCounter) (i : LaneInfo) : Lowering :=
  let (i, branches) := i.infer f
  ⟨f, temps, i, branches⟩

/-- Whether the body has to be lined up. -/
def isDivergent (l : Lowering) : Bool := !l.branches.isEmpty

/-- Lines up the body if any of its branches varies. -/
def lineUp (l : Lowering) : Except WidenError Lowering := do
  if l.isDivergent then
    let (f, i, temps) ← l.info.linearize l.func l.temps
    return analyze f temps i
  else return l

/-- Widens every instruction; no branch may vary any more. -/
def widen (l : Lowering) : Except WidenError (Func × TempCounter) := do
  if l.isDivergent then throw .branchesLeft
  l.info.widen l.func l.temps

end Lowering

end LoopLanes
