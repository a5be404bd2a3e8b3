/-
Estimated cost of scalar and of vector code.

Every instruction of a loop is weighted with the frequency of its block.  A
width pays where the scalar cost of as many iterations exceeds the cost of one
vector iteration.  The cost of one instruction is a word of 32 bits, which wraps
around.
-/
import LoopLanes.Loop.Region
import LoopLanes.Loop.TripCount

namespace LoopLanes

/-- What the target offers to vector code. -/
structure Target where
  maxVectorBits : Nat
  /-- functions with a version that works on all lanes at once -/
  vectorFuncs : List String

/-- Vector registers have this many bits unless stated otherwise. -/
def defaultMaxVectorBits : Nat := 256

/-- No vector has more lanes than this. -/
def maxVectorWidth : Nat := 64

/-- How the width of a loop is found where nothing fixes it. -/
inductive CostModel
  | target (t : Target)
  | fixed (width : Nat)

namespace Instr

/-- The cost of a scalar instruction. -/
def scalarCost : Instr → Nat
  | .arith _ op _ _ _ =>
    match op with
    | .div | .rem | .fdiv => 20
    | .mul => 3
    | .fadd | .fsub | .fmul => 4
    | _ => 1
  | .comp .. | .select .. | .gep .. => 1
  | .load .. | .store .. => 4
  | .call .. => 10
  | _ => 0

/-- The cost of `n` copies of a scalar instruction. -/
def repeatedCost (i : Instr) (n : Nat) : Nat := wrapU32 (i.scalarCost * wrapU32 n)

/-- The cost of the registers that hold all lanes of an instruction. -/
def packedCost (i : Instr) (width laneBits maxBits : Nat) : Nat :=
  let bits := width * max laneBits 1
  let regs := (bits + max maxBits 1 - 1) / max maxBits 1
  i.repeatedCost (max regs 1)

/-- The cost of an instruction for `width` lanes, the widest of which has
`laneBits` bits.  A call without a vector version is made lane by lane, and its
operands and result are moved one by one. -/
def vectorCost (i : Instr) (width laneBits : Nat) (t : Target) : Nat :=
  match i with
  | .call _ _ callee args =>
    if t.vectorFuncs.contains callee then i.packedCost width laneBits t.maxVectorBits
    else
      let shuffles := args.length + (if i.write.isSome then 1 else 0)
      wrapU32 ((i.scalarCost + shuffles) * width)
  | i => i.packedCost width laneBits t.maxVectorBits

end Instr

namespace Target

/-- A target without vector functions. -/
def ofBits (bits : Nat) : Target := ⟨bits, []⟩

/-- The widest lane of some blocks; pointers take no vector lane. -/
def widestLaneBits (bs : List Block) : Nat :=
  let types := bs.flatMap fun b =>
    b.phis.map (·.ty) ++ (b.instrs.filterMap Instr.write).map (·.ty)
  let bits := (types.filter fun t => !t.isPtr && t ≠ .void).foldl (fun m t => max m t.bits) 0
  if bits = 0 then 32 else bits

/-- The largest width to consider. -/
def widthCap (t : Target) (bs : List Block) (initial : Nat) : Nat :=
  floorPowerOfTwo (min (min initial (t.maxVectorBits / widestLaneBits bs)) maxVectorWidth)

/-- Scalar and vector cost of one vector iteration. -/
def regionCost (t : Target) (f : Func) (r : Region) (width : Nat) : Float × Float :=
  let bs := r.blocksIn f
  let laneBits := widestLaneBits bs
  bs.foldl
    (fun cost b =>
      let freq := r.frequencyOf b.id
      b.instrs.foldl
        (fun (s, v) i =>
          (s + freq * Float.ofNat (i.repeatedCost width),
            v + freq * Float.ofNat (i.vectorCost width laneBits t)))
        cost)
    (0.0, 0.0)

/-- Tries `width`, `2 * width`, ... up to the cap; of equally good widths the
wider one is kept.  Widths double, so `fuel` may be small. -/
def search (t : Target) (f : Func) (r : Region) (cap : Nat) :
    Nat → Nat → Nat × Float → Nat
  | 0, _, best => best.1
  | fuel + 1, width, best =>
    if cap < width then best.1
    else
      let (scalar, vector) := t.regionCost f r width
      let speedup : Float := if 0.0 < vector then scalar / vector else 0.0
      let best := if best.2 ≤ speedup ∧ 1.0 < speedup then (width, speedup) else best
      search t f r cap fuel (2 * width) best

/-- The best width up to `initial`; 1 where vectorizing does not pay. -/
def pickWidth (t : Target) (f : Func) (r : Region) (initial : Nat) : Nat :=
  let cap := t.widthCap (r.blocksIn f) initial
  t.search f r cap (cap + 1) 2 (1, 1.0)

end Target

namespace CostModel

/-- The width for a region, starting from the widest that is allowed. -/
def pickWidth (m : CostModel) (f : Func) (r : Region) (initial : Nat) : Nat :=
  match m with
  | target t => t.pickWidth f r initial
  | fixed w => w

end CostModel

end LoopLanes
