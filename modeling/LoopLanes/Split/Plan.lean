/-
Preparing a loop for vectorizing.

A loop is split into a main loop, in which one round stands for `W` of the
iterations, and the loop as it was for what remains:

  entering block → guard block → main loop → joining block → remaining loop

The main loop runs while `i OP bound - (W - 1) * step`, and the remaining loop
starts from the values with which the main loop is left.  Where the number of
iterations is known to be a multiple of `W`, the loop itself becomes the main
loop and nothing remains.

A plan is made without touching the function; `SplitPlan.commit` puts it in.
Names taken for a plan stay taken, also where no plan comes of it.
-/
import LoopLanes.Loop.Induction
import LoopLanes.Recurrence.Analysis
import LoopLanes.Split.Clone

namespace LoopLanes

/-- Why a loop cannot be prepared. -/
inductive UnsupportedLoop
  | exitNotInHeader
  | multipleLatches
  | latchNotJump
  | noPreheader
  | latchNotPostDominating
  | nonCanonicalInduction
  | unsupportedCompare
  | boundOverflow
  deriving DecidableEq, Repr

/-- The wording of each cause. -/
def UnsupportedLoop.message : UnsupportedLoop → String
  | exitNotInHeader => "the loop does not exit from its header"
  | multipleLatches => "the loop has more than one latch"
  | latchNotJump => "the latch does not end in a plain jump"
  | noPreheader => "the header has more than one outside predecessor"
  | latchNotPostDominating => "the latch does not post-dominate the loop body"
  | nonCanonicalInduction => "no canonical induction variable"
  | unsupportedCompare => "the exit compare is not monotone"
  | boundOverflow => "the vector bound overflows"

/-- The step that a strided phi of the main loop makes. -/
structure StrideUpdate where
  phi : Temp
  next : Temp
  step : Int

/-- New blocks for a split, and what ties them to the rest. -/
structure SplitParts where
  entering : BlockRef
  /-- the guard block, the main loop and the joining block -/
  blocks : List Block
  mainHeader : Int
  mainLatch : Int
  /-- per header phi, the value with which the main loop is left -/
  leaving : List (Temp × Value)
  joining : Label
  total : Int
  clone : LoopClone
  uniforms : List Temp
  /-- rounds of the main loop and of the remaining one, where they are known -/
  counts : Option (Int × Int)

/-- The two ways to prepare a loop. -/
inductive PlanKind
  | inPlace (latch : BlockRef) (updates : List StrideUpdate) (cond : Temp)
  | split (parts : SplitParts)

/-- A plan for one loop. -/
structure SplitPlan where
  width : Nat
  header : BlockRef
  kind : PlanKind

/-- A loop that is ready to be widened. -/
structure PreparedLoop where
  header : Int
  latch : Int
  /-- values that are made to agree in all lanes, such as the exit test -/
  uniforms : List Temp
  /-- names in the remaining loop and their names in the main loop -/
  tempMap : List (Temp × Temp)

/-- Iterations of the main loop and of the remaining one, for
`for (i = start; i OP bound; i += step)` and `width` lanes. -/
def splitCounts (start bound step : Int) (op : CompOp) (width : Int) : Option (Int × Int) := do
  let main ← runLength start (wrapI64 (bound - (width - 1) * step)) (wrapI64 (step * width)) op
  let rest ← runLength (wrapI64 (start + main * width * step)) bound step op
  return (main, rest)

/-- A guard `i OP bound - offset` in the strict form `i OP' bound - shift`; where
`bound - shift` leaves the word, `saturate` stands for it, and the main loop
does not run at all. -/
structure RuntimeBound where
  op : CompOp
  shift : Int
  saturate : Int

/-- The strict form of a guard. -/
def runtimeBound? (op : CompOp) (offset : Int) : Option RuntimeBound :=
  match op with
  | .slt => some ⟨.slt, offset, i32Min⟩
  | .sle => (fitI32? (offset - 1)).map fun s => ⟨.slt, s, i32Min⟩
  | .sgt => some ⟨.sgt, offset, i32Max⟩
  | .sge => (fitI32? (offset + 1)).map fun s => ⟨.sgt, s, i32Max⟩
  | _ => none

/-- Planning, with fresh names at hand. -/
abbrev Planning := ExceptT UnsupportedLoop (StateM TempCounter)

namespace Planning

/-- A fresh temporary. -/
def fresh (ty : Ty) : Planning Temp := modifyGet fun n => TempCounter.fresh n ty false

/-- A value that has to be there. -/
def require (e : UnsupportedLoop) : Option α → Planning α
  | some a => return a
  | none => throw e

end Planning

namespace RuntimeBound

/-- Instructions that compute the guard's bound at run time, and their
result. -/
def emit (b : RuntimeBound) (bound : Value) : Planning (Value × List Instr) := do
  let overflow ← Planning.fresh .i32
  let diff ← Planning.fresh .i32
  let result ← Planning.fresh .i32
  return (.temp result,
    [.comp overflow .icmp b.op .i32 bound (.ofInt (b.saturate + b.shift)),
     .arith diff .sub .i32 bound (.ofInt b.shift),
     .select result .i32 (.temp overflow) (.ofInt b.saturate) (.temp diff)])

end RuntimeBound

/-- What the checks of a loop find out. -/
structure LoopAnatomy where
  header : Block
  latch : BlockRef
  entering : BlockRef
  bodyEntry : Int
  induction : Induction

namespace SplitPlan

/-- The parts of a loop that can be prepared. -/
def anatomy (f : Func) (t : LoopForest) (l : Loop) (r : Recurrences) :
    Except UnsupportedLoop LoopAnatomy := do
  match (l.exitingBlocks f t).map (·.id) with
  | [e] => if e ≠ l.header.number then throw .exitNotInHeader
  | _ => throw .exitNotInHeader
  let some latch := l.singleLatch? f t | throw .multipleLatches
  match (f.linked? latch).bind (·.jump) with
  | some (.jump _) => if latch.number = l.header.number then throw .latchNotJump
  | _ => throw .latchNotJump
  let [entering] := l.outsidePreds f t | throw .noPreheader
  let some header := f.linked? l.header | throw .exitNotInHeader
  let some bodyEntry := (header.succ.map (·.number)).find? (t.contains l)
    | throw .exitNotInHeader
  if !(DomTree.ofFunc f true).dominates latch.number bodyEntry then throw .latchNotPostDominating
  let some i := Induction.ofLoop? f t l | throw .nonCanonicalInduction
  let monotone :=
    match i.op with
    | .slt | .sle => 0 < i.step
    | .sgt | .sge => i.step < 0
    | _ => false
  if !monotone then throw .unsupportedCompare
  if (r.stride? i.indvar).isNone then throw .nonCanonicalInduction
  return ⟨header, latch, entering, bodyEntry, i⟩

/-- The steps of the strided phis, scaled to the number of lanes. -/
def scaledSteps (phis : List Phi) (r : Recurrences) (lanes : Int) :
    Planning (List StrideUpdate) :=
  (phis.filterMap fun p => r.stride? p.target).mapM fun p => do
    let step ← Planning.require .boundOverflow (fitI32? (p.stride * lanes))
    return ⟨p.phi, ← Planning.fresh .i32, step⟩

/-- The comparison that guards the main loop: its operator, its bound, and the
instructions that compute the bound. -/
def guard (i : Induction) (offset : Int) : Planning (CompOp × Value × List Instr) := do
  match i.bound with
  | .int bound =>
    let b ← Planning.require .boundOverflow (fitI32? (bound.toInt - offset))
    return (i.op, .ofInt b, [])
  | bound =>
    let b ← Planning.require .boundOverflow (runtimeBound? i.op offset)
    let (v, instrs) ← b.emit bound
    return (b.op, v, instrs)

/-- Adds the scaled steps to the latch. -/
def advance (updates : List StrideUpdate) (ρ : Temp → Temp) (b : Block) : Block :=
  let step (u : StrideUpdate) : Instr :=
    .arith u.next .add .i32 (.temp (ρ u.phi)) (.ofInt u.step)
  { b with instrs := b.instrs ++ updates.map step }

/-- Lets the scaled steps flow into the header phis. -/
def redirect (updates : List StrideUpdate) (ρ : Temp → Temp) (latch : Label) (b : Block) :
    Block :=
  { b with phis := updates.foldl (fun ps u => Phi.setIn (ρ u.phi) latch (.temp u.next) ps) b.phis }

/-- Stages the new blocks of a split. -/
def splitParts (f : Func) (t : LoopForest) (l : Loop) (a : LoopAnatomy) (lanes : Int)
    (updates : List StrideUpdate) : Planning SplitParts := do
  let i := a.induction
  let offset ← Planning.require .boundOverflow (fitI32? (i.step * (lanes - 1)))
  let (op, bound, guardInstrs) ← guard i offset
  let counts := do splitCounts (← i.start.int?) (← i.bound.int?) i.step i.op lanes
  let blocks := l.blocks f t
  let guardId := f.total + 1
  let clone ← modifyGet (LoopClone.ofBlocks blocks guardId)
  let joiningId := guardId + blocks.length + 1
  let joining := Label.ofBlock joiningId
  let clone := clone.mapOutside a.entering.label (Label.ofBlock guardId)
  let clone := clone.mapOutside (Label.ofBlock i.exit) joining
  let header ← Planning.require .nonCanonicalInduction (clone.block? l.header.number)
  let latch ← Planning.require .nonCanonicalInduction (clone.block? a.latch.number)
  let body ← Planning.require .nonCanonicalInduction (clone.block? a.bodyEntry)
  let cond ← Planning.fresh .i32
  let test (b : Block) : Block :=
    { b with
      instrs := b.instrs ++ [.comp cond .icmp op .i32 (.temp (clone.temp i.indvar)) bound]
      jump := some (.branch .i32 (.temp cond) (Label.ofBlock body) joining) }
  let finish (b : Block) : Block :=
    let b := if b.id = header then redirect updates clone.temp (Label.ofBlock latch) (test b) else b
    if b.id = latch then advance updates clone.temp b else b
  let guardBlock : Block :=
    { Block.ofId guardId with
      instrs := guardInstrs, jump := some (.jump (Label.ofBlock header)) }
  let joiningBlock : Block :=
    { Block.ofId joiningId with jump := some (.jump l.header.label) }
  return {
    entering := a.entering
    blocks := guardBlock :: ((clone.copies blocks).map finish) ++ [joiningBlock]
    mainHeader := header
    mainLatch := latch
    leaving := a.header.phis.map fun p => (p.target, .temp (clone.temp p.target))
    joining := joining
    total := joiningId
    clone := clone
    uniforms := cond :: bound.temp?.toList
    counts := counts }

/-- Plans a loop for `width` lanes; its number of iterations is known to be a
multiple of `alignment`. -/
def make (f : Func) (t : LoopForest) (l : Loop) (width alignment : Nat) (r : Recurrences) :
    Planning SplitPlan := do
  let a ← ExceptT.mk (pure (anatomy f t l r))
  let lanes ← Planning.require .boundOverflow (fitI32? width)
  let updates ← scaledSteps a.header.phis r lanes
  if 1 < alignment ∧ alignment % width = 0 then
    return ⟨width, l.header, .inPlace a.latch updates a.induction.cond⟩
  else return ⟨width, l.header, .split (← splitParts f t l a lanes updates)⟩

/-- Whether the loop is split. -/
def isSplit (p : SplitPlan) : Bool :=
  match p.kind with
  | .split _ => true
  | .inPlace .. => false

/-- The header phis of the loop that will be widened. -/
def headerPhis (p : SplitPlan) (f : Func) : List Phi :=
  match p.kind with
  | .inPlace .. => ((f.linked? p.header).map (·.phis)).getD []
  | .split s => ((s.blocks.find? (·.id == s.mainHeader)).map (·.phis)).getD []

/-- Names in the remaining loop and their names in the main loop. -/
def tempMap (p : SplitPlan) : List (Temp × Temp) :=
  match p.kind with
  | .inPlace .. => []
  | .split s => s.clone.tempMap

/-- Lets a header phi of the remaining loop start from where the main loop is
left. -/
def startFrom (s : SplitParts) (p : Phi) : Phi :=
  let kept := p.incoming.filter (·.2 != s.entering.label)
  let entry := (s.leaving.lookup p.target).map fun v => (v, s.joining)
  { p with incoming := kept ++ entry.toList }

/-- Puts a plan into the function.  The links are rebuilt; a jump to a block
that is not there is answered by its label. -/
def commit (p : SplitPlan) (f : Func) : Except Label (PreparedLoop × Func) :=
  match p.kind with
  | .inPlace latch updates cond =>
    let f := f.modify latch (advance updates id)
    let f := f.modify p.header (redirect updates id latch.label)
    .ok (⟨p.header.number, latch.number, [cond], []⟩, f)
  | .split s =>
    let guardLabel := ((s.blocks.head?).map Block.label).getD p.header.label
    let ρ := Func.renameOne p.header.label guardLabel
    let f := f.modify s.entering (·.renameTargets ρ)
    let f := f.modify p.header fun b => { b with phis := b.phis.map (startFrom s) }
    let place := (f.position? p.header.number).getD 0
    let blocks := f.blocks.take place ++ s.blocks ++ f.blocks.drop place
    match { f with blocks := blocks, total := max f.total s.total }.resolveLinks with
    | (_, some l) => .error l
    | (f, none) => .ok (⟨s.mainHeader, s.mainLatch, s.uniforms, s.clone.tempMap⟩, f)

end SplitPlan

end LoopLanes
