/-
How often an arithmetic sequence stays on one side of a bound.

`runLength a b s op` is the number of leading `k` for which `a + k * s OP b`
holds, and nothing where it holds for ever or where `op` is no such test.  It is
computed in signed words of 64 bits, which wrap around; for bounds and steps of
32 bits they never do.
-/
import LoopLanes.Ir.Op
import LoopLanes.Basic.Word

namespace LoopLanes

/-- The quotient rounded towards positive infinity, for `b ≠ 0`. -/
def ceilDiv (a b : Int) : Int :=
  let q := a.tdiv b
  if a.tmod b ≠ 0 ∧ (a < 0 ↔ b < 0) then q + 1 else q

/-- Number of leading `k ≥ 0` with `start + k * step OP bound`. -/
def runLength (start bound step : Int) (op : CompOp) : Option Int :=
  let atLeastZero (n : Int) : Option Int := some (max n 0)
  match op with
  | .slt =>
    if 0 < step then atLeastZero (ceilDiv (wrapI64 (bound - start)) step)
    else if start < bound then none
    else some 0
  | .sle =>
    if 0 < step then atLeastZero (wrapI64 (wrapI64 (bound - start) / step + 1))
    else if start ≤ bound then none
    else some 0
  | .sgt =>
    if step < 0 then atLeastZero (ceilDiv (wrapI64 (start - bound)) (wrapI64 (-step)))
    else if bound < start then none
    else some 0
  | .sge =>
    if step < 0 then atLeastZero (wrapI64 (wrapI64 (start - bound) / wrapI64 (-step) + 1))
    else if bound ≤ start then none
    else some 0
  | .ne =>
    let dist := wrapI64 (bound - start)
    if dist.tmod step ≠ 0 ∨ dist.tdiv step < 0 then none else some (dist.tdiv step)
  | _ => none

/-- Powers of two, zero not among them. -/
def isPowerOfTwo (x : Nat) : Bool := x ≠ 0 && x &&& (x - 1) = 0

/-- The largest power of two up to `x`; zero for zero. -/
def floorPowerOfTwo (x : Nat) : Nat := if x = 0 then 0 else Nat.pow 2 x.log2

end LoopLanes
