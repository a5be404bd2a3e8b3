/-
Vector code for regions without varying branches.

Instructions whose result or effect differs from lane to lane are run once per
lane; where they read a strided value, its lanes are laid out in front of them,
once in each block.  Partial results of a reduction start from the identity,
with the initial value in the first lane, and are folded in a new block behind
the loop, from which everything outside reads them.
-/
import LoopLanes.Shape.Inference
import LoopLanes.Widen.Error

namespace LoopLanes

namespace LaneInfo

/-- Whether an instruction is to be run lane by lane. -/
def isVectorInstr (i : LaneInfo) (instr : Instr) : Bool :=
  if instr.isVector || instr.isCall then true
  else
    match instr.write with
    | some t => (i.shapeOf t).isVector
    | none => instr.isStore && instr.reads.any fun v => !(i.shape v).isUniform

end LaneInfo

/-- The state while a block is widened. -/
structure WidenState where
  temps : TempCounter
  /-- lanes laid out so far in the block at hand -/
  ladders : List (Temp × Temp)
  out : List Instr

/-- Widening a block. -/
abbrev Widening := StateM WidenState

namespace Widening

/-- The lanes of a strided temporary, laid out unless they are already. -/
def ladder (width : Nat) (t : Temp) (stride : Int) : Widening Temp := do
  match (← get).ladders.lookup t with
  | some lanes => return lanes
  | none =>
    modifyGet fun s =>
      let (lanes, temps) := TempCounter.fresh s.temps t.ty false
      let instr : Instr := .ladder lanes t.ty (.temp t) stride width
      (lanes, ⟨temps, (t, lanes) :: s.ladders, s.out ++ [instr]⟩)

/-- The lanes that stand for a temporary that is read, if it is strided. -/
def lanesOf (i : LaneInfo) (t : Temp) : Widening (Option (Temp × Value)) := do
  match i.shapeOf t with
  | .strided s => return some (t, .temp (← ladder i.width t s))
  | _ => return none

/-- Widens an instruction. -/
def instr (i : LaneInfo) (instr : Instr) : Widening Unit := do
  let emit (x : Instr) : Widening Unit := modify fun s => { s with out := s.out ++ [x] }
  if !i.isVectorInstr instr then emit instr
  else
    let instr := if instr.isVector then instr else .vec i.width none instr
    let lanes := (← instr.readTemps.mapM (lanesOf i)).filterMap id
    emit (instr.subst fun t => lanes.lookup t)

end Widening

namespace LaneInfo

/-- Widens a block. -/
def widenBlock (i : LaneInfo) (f : Func) (temps : TempCounter) (r : BlockRef) :
    Func × TempCounter :=
  match f.linked? r with
  | none => (f, temps)
  | some b =>
    let (_, s) := (b.instrs.forM (Widening.instr i)).run ⟨temps, [], []⟩
    (f.modify r fun b => { b with instrs := s.out }, s.temps)

/-- Widens an entry of a phi: a strided value is laid out at the end of the
block it comes from. -/
def widenEntry (i : LaneInfo) (f : Func) (temps : TempCounter) (e : Value × Label) :
    (Value × Label) × Func × TempCounter :=
  match e.1, f.labelled? e.2 with
  | .temp t, some pred =>
    match i.shapeOf t with
    | .strided s =>
      let (lanes, temps) := TempCounter.fresh temps t.ty false
      let instr : Instr := .ladder lanes t.ty (.temp t) s i.width
      ((.temp lanes, e.2),
        f.modify pred.ref (fun b => { b with instrs := b.instrs ++ [instr] }), temps)
    | _ => (e, f, temps)
  | _, _ => (e, f, temps)

/-- Widens entries in order. -/
def widenEntries (i : LaneInfo) :
    List (Value × Label) → Func → TempCounter → List (Value × Label) × Func × TempCounter
  | [], f, temps => ([], f, temps)
  | e :: es, f, temps =>
    let (e, f, temps) := i.widenEntry f temps e
    let (es, f, temps) := i.widenEntries es f temps
    (e :: es, f, temps)

/-- Widens the phis that hold a value per lane. -/
def widenPhis (i : LaneInfo) : List Phi → Func → TempCounter → List Phi × Func × TempCounter
  | [], f, temps => ([], f, temps)
  | p :: ps, f, temps =>
    let (p, f, temps) :=
      if (i.shapeOf p.target).isVector then
        let (es, f, temps) := i.widenEntries p.incoming f temps
        ({ p with incoming := es }, f, temps)
      else (p, f, temps)
    let (ps, f, temps) := i.widenPhis ps f temps
    (p :: ps, f, temps)

/-- Widens the phis of a block; those of the header are left to the
reductions. -/
def widenBlockPhis (i : LaneInfo) (f : Func) (temps : TempCounter) (r : BlockRef) :
    Func × TempCounter :=
  if r.number = i.region.header.number then (f, temps)
  else
    match f.linked? r with
    | none => (f, temps)
    | some b =>
      let (phis, f, temps) := i.widenPhis b.phis f temps
      (f.modify r fun b => { b with phis := phis }, temps)

/-- The first value that leaves the region though it varies. -/
def escaping? (i : LaneInfo) (outside : List Block) : Option Temp :=
  let reads := outside.flatMap fun b =>
    (b.phis.map Instr.phi ++ b.instrs ++ b.jump.toList).flatMap Instr.readTemps
  reads.find? fun t => i.shapeOf t = .varying

/-- The header phis that hold partial results. -/
def partials (i : LaneInfo) (header : Block) : List (Temp × RedKind) :=
  header.phis.filterMap fun p =>
    match i.shapeOf p.target with
    | .partials k => some (p.target, k)
    | _ => none

end LaneInfo

/-- The ends of a loop between which partial results are kept. -/
structure FoldSite where
  header : BlockRef
  entering : BlockRef
  width : Nat

/-- Reductions under way: the function, fresh names, the instructions that fold,
and what is read instead of each phi outside. -/
structure FoldState where
  func : Func
  temps : TempCounter
  folds : List Instr
  results : List (Temp × Value)

namespace FoldSite

/-- The lanes from which partial results start. -/
def seed (width : Nat) (init identity : Value) : List Value :=
  (init :: List.replicate (width - 1) identity).take width

/-- Seeds the lanes of a header phi and folds them behind the loop. -/
def add (site : FoldSite) (s : FoldState) (phi : Temp) (kind : RedKind) :
    Except WidenError FoldState := do
  let ty := phi.ty
  let some identity := kind.identity? ty | throw (.noReduction kind ty)
  let some op := kind.arithOp? ty | throw (.noReduction kind ty)
  let l := site.entering.label
  let old := ((s.func.linked? site.header).bind fun b => b.phis.find? (·.target == phi)).bind
    (·.incoming? l)
  let (seed, temps) := TempCounter.fresh s.temps ty false
  let lanes := FoldSite.seed site.width (old.getD identity) identity
  let f := s.func.modify site.entering fun b =>
    { b with instrs := b.instrs ++ [.buildVec seed ty lanes] }
  let f := f.modify site.header fun b => { b with phis := Phi.setIn phi l (.temp seed) b.phis }
  let (result, temps) := TempCounter.fresh temps ty false
  return ⟨f, temps, s.folds ++ [.reduce result op ty (.temp phi) site.width],
    s.results ++ [(phi, .temp result)]⟩

end FoldSite

namespace LaneInfo

/-- Replaces values in a block. -/
def substBlock (σ : Temp → Option Value) (b : Block) : Block :=
  { b with
    phis := b.phis.map (·.subst σ), instrs := b.instrs.map (·.subst σ),
    jump := b.jump.map (·.subst σ) }

/-- Keeps partial results in the header phis and folds them in a new block
between the loop and its exit. -/
def foldPartials (i : LaneInfo) (f : Func) (temps : TempCounter)
    (phis : List (Temp × RedKind)) (outside : List BlockRef) :
    Except WidenError (Func × TempCounter) := do
  let r := i.region.header
  let (prev, succ) := ((f.linked? r).map fun b => (b.prev, b.succ)).getD ([], [])
  let some entering := prev.find? fun b => !i.region.contains b.number | throw .noPreheader
  let some exit := succ.find? fun b => !i.region.contains b.number | throw .exitNotInHeader
  let (foldId, f) := f.newBlockId
  let s ← phis.foldlM (fun s (t, k) => FoldSite.add ⟨r, entering, i.width⟩ s t k)
    ⟨f, temps, [], []⟩
  let foldLabel := Label.ofBlock foldId
  let foldBlock : Block :=
    { Block.ofId foldId with instrs := s.folds, jump := some (.jump exit.label) }
  let f := s.func.modify r (·.renameTargets (Func.renameOne exit.label foldLabel))
  let f := f.modify exit (·.renameIncoming (Func.renameOne r.label foldLabel))
  let f := outside.foldl
    (fun f b => f.modify b (substBlock fun t => s.results.reverse.lookup t)) f
  let last := (i.region.blocks.filterMap fun b => f.position? b.number).max?
  let place := (last.map (· + 1)).getD f.blocks.length
  match { f with blocks := f.blocks.insertIdx place foldBlock }.resolveLinks with
  | (_, some l) => throw (.unknownBlock l)
  | (f, none) => return (f, s.temps)

/-- Turns a region without varying branches into vector code. -/
def widen (f : Func) (i : LaneInfo) (temps : TempCounter) :
    Except WidenError (Func × TempCounter) := do
  let partials := ((f.linked? i.region.header).map i.partials).getD []
  let outside := f.blocks.filter fun b => !i.region.contains b.id
  if let some t := i.escaping? outside then throw (.escapes t)
  let (f, temps) := i.region.blocks.foldl (fun (f, n) r => i.widenBlock f n r) (f, temps)
  let (f, temps) := i.region.blocks.foldl (fun (f, n) r => i.widenBlockPhis f n r) (f, temps)
  if partials.isEmpty then return (f, temps)
  else i.foldPartials f temps partials (outside.map (·.ref))

end LaneInfo

end LoopLanes
