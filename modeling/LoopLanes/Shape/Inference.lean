/-
Lane shapes of all values of a region.

Shapes start undefined, but for those the caller has pinned, and grow along the
instructions until nothing changes.  What is still undefined then depends on
nothing known and counts as varying.  As soon as a branch varies, the lanes may
reach a meeting point along different edges, and its phis vary as well.
-/
import LoopLanes.Shape.Basic
import LoopLanes.Loop.Region

namespace LoopLanes

/-- A region on its way to vector code. -/
structure LaneInfo where
  width : Nat
  region : Region
  /-- shapes fixed by the caller, the latest in front -/
  pinned : List (Temp × LaneShape)
  computed : List (Temp × LaneShape)
  /-- the temporaries that the region defines -/
  defs : List Temp

namespace LaneInfo

/-- A region about which nothing is known. -/
def ofRegion (f : Func) (width : Nat) (r : Region) : LaneInfo :=
  ⟨width, r, [], [], writesOf (r.blocksIn f)⟩

/-- Fixes the shape of a temporary. -/
def pin (i : LaneInfo) (t : Temp) (s : LaneShape) : LaneInfo :=
  { i with pinned := (t, s) :: i.pinned }

/-- The shape of a temporary; those of other blocks are uniform. -/
def shapeOf (i : LaneInfo) (t : Temp) : LaneShape :=
  if i.defs.contains t then ((i.pinned.lookup t).or (i.computed.lookup t)).getD .unknown
  else .uniform

/-- The shape of an operand; constants are uniform. -/
def shape (i : LaneInfo) (v : Value) : LaneShape :=
  match v.temp? with
  | some t => i.shapeOf t
  | none => .uniform

/-- All shapes, sorted. -/
def table (i : LaneInfo) : List (Temp × LaneShape) :=
  let temps := (i.pinned ++ i.computed).map (·.1)
  (Temp.sorted temps).map fun t =>
    (t, ((i.pinned.lookup t).or (i.computed.lookup t)).getD .unknown)

/-- Joins a shape to that of a temporary, unless it is pinned. -/
def update (i : LaneInfo) (t : Temp) (s : LaneShape) : LaneInfo :=
  if (i.pinned.lookup t).isSome then i
  else
    let old := (i.computed.lookup t).getD .unknown
    let new := old.join s
    if new = old then i else { i with computed := setEntry t new i.computed }

end LaneInfo

/-! ### How instructions carry shapes on -/

namespace LaneShape

/-- The shape of a result that has no stride of its own. -/
def combine (shapes : List LaneShape) : LaneShape :=
  if shapes.any fun s => !s.isDefined then unknown
  else if shapes.all isUniform then uniform
  else varying

/-- The strides of two operands. -/
def strides? (a b : LaneShape) : Option (Int × Int) := do return (← a.stride?, ← b.stride?)

/-- The shape of a result with a stride that may have left the word. -/
def ofStride? (a b : LaneShape) : Option Int → LaneShape
  | some s => ofStride s
  | none => if a.isUniform && b.isUniform then uniform else varying

/-- The shape of an arithmetic result; `lhs` and `rhs` are its operands. -/
def arith (op : ArithOp) (lhs rhs : Value) (a b : LaneShape) : LaneShape :=
  if !a.isDefined || !b.isDefined then unknown
  else
    match op, strides? a b with
    | .add, some (s, r) => ofStride? a b (fitI32? (s + r))
    | .sub, some (s, r) => ofStride? a b (fitI32? (s - r))
    | .mul, some (s, r) =>
      if r = 0 then ofStride? a b (rhs.int?.bind fun c => fitI32? (s * c))
      else if s = 0 then ofStride? a b (lhs.int?.bind fun c => fitI32? (r * c))
      else varying
    | .shl, some (s, r) =>
      if r = 0 then
        ofStride? a b (rhs.int?.bind fun c =>
          if 0 ≤ c ∧ c < 31 then fitI32? (s * Int.pow 2 c.toNat) else none)
      else varying
    | _, _ => combine [a, b]

/-- The shape of the result of an instruction, given those of its operands. -/
def transfer (shape : Value → LaneShape) : Instr → LaneShape
  | .arith _ op _ lhs rhs => arith op lhs rhs (shape lhs) (shape rhs)
  | .gep _ _ addr offset =>
    let a := shape addr
    let o := shape offset
    if !a.isDefined || !o.isDefined then unknown
    else
      match (strides? a o).bind fun (s, r) => fitI32? (s + r) with
      | some s => ofStride s
      | none => varying
  | .load _ _ addr =>
    match shape addr with
    | unknown => unknown
    | uniform => uniform
    | _ => varying
  | .comp _ _ _ _ lhs rhs => combine [shape lhs, shape rhs]
  | .select _ _ cond lhs rhs => combine [shape cond, shape lhs, shape rhs]
  | .reduce .. => uniform
  | _ => varying

end LaneShape

/-! ### Growing shapes until nothing changes -/

namespace LaneInfo

/-- The shape of a phi: that of all it takes in, unless lanes may come along
different edges. -/
def phiShape (i : LaneInfo) (merges : Bool) (p : Phi) : LaneShape :=
  if merges then .varying
  else p.incoming.foldl (fun s e => s.join (i.shape e.1)) .unknown

/-- Carries shapes through one block. -/
def passBlock (divergent : Bool) (i : LaneInfo) (b : Block) : LaneInfo :=
  let merges := divergent && b.id != i.region.header.number && 1 < b.prev.length
  let i := b.phis.foldl (fun i p => i.update p.target (i.phiShape merges p)) i
  b.instrs.foldl
    (fun i instr =>
      match instr.write with
      | some t => i.update t (LaneShape.transfer i.shape instr)
      | none => i)
    i

/-- Carries shapes through all blocks, again and again until nothing changes.
Every shape grows at most twice, which bounds the fuel. -/
def propagate (bs : List Block) (divergent : Bool) : Nat → LaneInfo → LaneInfo
  | 0, i => i
  | fuel + 1, i =>
    let j := bs.foldl (passBlock divergent) i
    if j.computed = i.computed then i else propagate bs divergent fuel j

/-- Whatever is still undefined varies. -/
def settleUnknown (bs : List Block) (i : LaneInfo) : LaneInfo :=
  (writesOf bs).foldl
    (fun i t => if (i.shapeOf t).isDefined then i else i.update t .varying) i

/-- The blocks whose lanes may take different branches. -/
def varyingBranches (bs : List Block) (i : LaneInfo) : List Int :=
  (bs.filter fun b =>
    match b.jump with
    | some (.branch _ cond _ _) => (i.shape cond).isDefined && !(i.shape cond).isUniform
    | _ => false).map (·.id)

/-- Alternates propagation and settling; answers the varying branches too. -/
def settle (bs : List Block) (bound : Nat) : Nat → Bool → LaneInfo → LaneInfo × List Int
  | 0, _, i => (i, varyingBranches bs i)
  | fuel + 1, divergent, i =>
    let i := propagate bs divergent bound i
    let j := settleUnknown bs i
    let branches := varyingBranches bs j
    if !branches.isEmpty && !divergent then settle bs bound fuel true j
    else if j.computed = i.computed then (j, branches)
    else settle bs bound fuel divergent j

/-- The shapes of all values of a region, and the blocks whose branches
vary. -/
def infer (f : Func) (i : LaneInfo) : LaneInfo × List Int :=
  let bs := i.region.blocksIn f
  let bound := 2 * (writesOf bs).length + 2
  settle bs bound bound false { i with computed := [], defs := writesOf bs }

end LaneInfo

end LoopLanes
