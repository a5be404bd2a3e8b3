/-
Straight-line code for loop bodies with varying branches.

The blocks of the body are lined up in topological order and each gets a mask
that holds in the lanes that would have come there; no mask means every lane.
Phis become selections on the masks of the edges they stand for, and what
could fail or be seen from outside is executed under the mask of its block.
-/
import LoopLanes.Shape.Inference
import LoopLanes.Widen.Error
import LoopLanes.Cfg.Dominator

namespace LoopLanes

/-! ### Topological order -/

/-- A topological sort under way.  The open edges of a block are counted by its
number; a block that is reached again after they were all counted has less than
none open, and does not join the queue another time. -/
structure TopoState where
  pending : List (Int × Int)
  queue : List BlockRef
  order : List BlockRef

namespace TopoState

/-- Counts an edge as done; a block without open edges joins the queue. -/
def arrive (s : TopoState) (target : BlockRef) : TopoState :=
  match s.pending.lookup target.number with
  | some d =>
    { s with
      pending := setEntry target.number (d - 1) s.pending
      queue := if d = 1 then s.queue ++ [target] else s.queue }
  | none => s

/-- Works through the queue; what enters it is there from the start or has its
last edge counted, once for each number, which bounds the fuel. -/
def run (f : Func) : Nat → TopoState → TopoState
  | 0, s => s
  | fuel + 1, s =>
    match s.queue with
    | [] => s
    | b :: queue =>
      let succ := ((f.linked? b).map (·.succ)).getD []
      let s := succ.foldl arrive { s with queue := queue }
      run f fuel { s with order := s.order ++ [b] }

end TopoState

/-- The blocks of a body in topological order; none if they form a cycle.  Of
several blocks of one number the last one's predecessors count. -/
def topoOrder? (f : Func) (body : List BlockRef) : Option (List BlockRef) :=
  let ids := body.map (·.number)
  let inDegree (b : BlockRef) : Int :=
    ((((f.linked? b).map (·.prev)).getD []).filter fun p => ids.contains p.number).length
  let pending := body.foldl (fun table b => setEntry b.number (inDegree b) table) []
  let start := body.filter fun b => pending.lookup b.number == some 0
  let s := TopoState.run f (body.length + 1) ⟨pending, start, []⟩
  if s.order.length = body.length then some s.order else none

/-! ### Masks -/

/-- The state while masks are being built. -/
structure MaskState where
  temps : TempCounter
  /-- instructions of the block at hand -/
  out : List Instr
  /-- masks of the edges so far, the latest in front -/
  edges : List ((Int × Int) × Option Value)

/-- Building masks. -/
abbrev Masking := StateM MaskState

namespace Masking

/-- A fresh temporary. -/
def fresh (ty : Ty) : Masking Temp :=
  modifyGet fun s =>
    let (t, n) := TempCounter.fresh s.temps ty false
    (t, { s with temps := n })

/-- Appends an instruction. -/
def emit (i : Instr) : Masking Unit := modify fun s => { s with out := s.out ++ [i] }

/-- Compares a condition with zero. -/
def test (cond : Value) (op : CompOp) : Masking Value := do
  let t ← fresh .i32
  emit (.comp t .icmp op .i32 cond (.int 0))
  return .temp t

/-- Combines two masks. -/
def combine (op : ArithOp) (a b : Value) : Masking Value := do
  let t ← fresh .i32
  emit (.arith t op .i32 a b)
  return .temp t

/-- The lanes of a mask in which a condition holds. -/
def both (mask : Option Value) (cond : Value) : Masking (Option Value) := do
  match mask with
  | some m => return some (← combine .and m cond)
  | none => return some cond

/-- The lanes of any of some masks, given those of the ones before; all lanes
as soon as one of them has no mask. -/
def any : Option Value → List (Option Value) → Masking (Option Value)
  | acc, [] => return acc
  | _, none :: _ => return none
  | none, some m :: ms => any (some m) ms
  | some a, some m :: ms => do any (some (← combine .or a m)) ms

/-- The mask of an edge. -/
def edge (source target : Int) : Masking (Option Value) := do
  return ((← get).edges.lookup (source, target)).join

/-- Sets the mask of the edge to a label. -/
def setEdge (source : Int) (target : Label) (mask : Option Value) : Masking Unit :=
  match target.blockId? with
  | some b => modify fun s => { s with edges := ((source, b), mask) :: s.edges }
  | none => return ()

/-- What is left of a phi once the entries under a mask are taken as choices on
top of the last entry without one. -/
def choices (first : Value) (rest : List (Value × Option Value)) :
    Value × List (Value × Value) :=
  rest.foldl
    (fun (base, picks) (value, mask) =>
      match mask with
      | some m => (base, picks ++ [(m, value)])
      | none => (value, []))
    (first, [])

/-- Emits selections one on top of the other; the last defines the target. -/
def selections (target : Temp) (ty : Ty) : Value → List (Value × Value) → Masking Unit
  | _, [] => return ()
  | base, [(cond, value)] => emit (.select target ty cond value base)
  | base, (cond, value) :: rest => do
    let t ← fresh ty
    emit (.select t ty cond value base)
    selections target ty (.temp t) rest

/-- Turns a phi into selections.  A phi whose value does not depend on a mask
becomes a selection that always takes it. -/
def phi (block : Int) (p : Phi) : Masking Unit := do
  let entries ← p.incoming.mapM fun (v, l) => do
    return (v, ← edge ((l.blockId?).getD (-1)) block)
  match entries with
  | [] => return ()
  | (first, _) :: rest =>
    match choices first rest with
    | (base, []) => selections p.target p.ty base [(.int 1, base)]
    | (base, picks) => selections p.target p.ty base picks

end Masking

/-- Whether an instruction must not be executed in lanes that would not have
come to it. -/
def Instr.needsMask : Instr → Bool
  | .arith _ op _ _ _ => op = .div || op = .rem
  | .vec .. => false
  | i => i.isStore || i.isCall || i.isLoad

/-- An instruction in a block with a mask. -/
def Instr.under (width : Nat) (mask : Option Value) (i : Instr) : Instr :=
  match mask with
  | some m => if i.needsMask then .vec width (some m) i else i
  | none => i

/-- What stays the same while a body is lined up. -/
structure BodyPlan where
  header : Int
  entry : Int
  postDom : DomTree
  width : Nat

namespace BodyPlan

/-- Sets the masks of the edges out of a block. -/
def leave (mask : Option Value) (block : Int) : Instr → Masking Unit
  | .branch _ cond l m => do
    if l = m then
      Masking.setEdge block l mask
      Masking.setEdge block m mask
    else
      let yes ← Masking.test cond .ne
      let no ← Masking.test cond .eq
      let yes ← Masking.both mask yes
      let no ← Masking.both mask no
      Masking.setEdge block l yes
      Masking.setEdge block m no
  | jump => jump.targets.forM fun l => Masking.setEdge block l mask

/-- The mask of a block; none where every lane comes through. -/
def maskOf (p : BodyPlan) (b : Block) : Masking (Option Value) := do
  let preds := (b.prev.map (·.number)).filter (· != p.header)
  let incoming ← preds.mapM fun q => Masking.edge q b.id
  if b.id = p.entry || p.postDom.dominates b.id p.entry then return none
  else Masking.any none incoming

/-- Lines up one block, which goes on to `next` if there is one. -/
def block (p : BodyPlan) (b : Block) (next : Option BlockRef) : Masking Block := do
  modify fun s => { s with out := [] }
  let mask ← p.maskOf b
  b.phis.forM (Masking.phi b.id)
  b.instrs.forM fun i => Masking.emit (i.under p.width mask)
  b.jump.forM (leave mask b.id)
  let jump :=
    match next with
    | some n => some (.jump n.label)
    | none => b.jump
  return { b with phis := [], instrs := (← get).out, jump := jump }

/-- Lines up the blocks of a function in the given order. -/
def blocks (p : BodyPlan) : List BlockRef → Func → Masking Func
  | [], f => return f
  | r :: rs, f => do
    match f.linked? r with
    | none => p.blocks rs f
    | some b =>
      let b ← p.block b rs.head?
      p.blocks rs (f.modify r fun _ => b)

end BodyPlan

namespace LaneInfo

/-- How the body of a region is to be lined up, and in which order. -/
def bodyPlan (f : Func) (i : LaneInfo) : Except WidenError (BodyPlan × List BlockRef) := do
  let header := i.region.header
  let body := i.region.blocks.filter (·.number != header.number)
  let succ := ((f.linked? header).map (·.succ)).getD []
  let some entry := (succ.map (·.number)).find? i.region.contains | throw .noBody
  let some order := topoOrder? f body | throw .nestedLoop
  let some latch := order.getLast?.bind f.linked? | throw .noBody
  if !latch.succ.any (·.number == header.number) then throw (.notLatch latch.label)
  return (⟨header.number, entry, DomTree.ofFunc f true, i.width⟩, order)

/-- Lines up the body of a region. -/
def linearize (f : Func) (i : LaneInfo) (temps : TempCounter) :
    Except WidenError (Func × LaneInfo × TempCounter) := do
  let (plan, order) ← i.bodyPlan f
  let (f, s) := (plan.blocks order f).run ⟨temps, [], []⟩
  match f.resolveLinks with
  | (_, some l) => throw (.unknownBlock l)
  | (f, none) =>
    let blocks := i.region.header :: order
    return (f, { i with region := { i.region with blocks := blocks } }, s.temps)

end LaneInfo

end LoopLanes
