/-
Counted loops.

A loop counts when it has one latch, one way in and one exiting block, and an
integer phi that gains a constant on every round and that the exit compares
with something the loop does not change.  The comparison is normalised so that
the loop goes on while `tested OP bound`.
-/
import LoopLanes.Loop.Forest
import LoopLanes.Loop.TripCount

namespace LoopLanes

/-- The induction of a counted loop and its exit test. -/
structure Induction where
  header : Int
  latch : Int
  exiting : Int
  exit : Int
  indvar : Temp
  next : Temp
  start : Value
  step : Int
  bound : Value
  /-- the comparison that the exit branches on -/
  cond : Temp
  /-- the loop goes on while `tested OP bound` -/
  op : CompOp
  /-- whether `next` is tested and not `indvar` -/
  onNext : Bool

namespace Induction

/-- The constant that an instruction adds to `indvar`. -/
def addend? (indvar : Temp) (op : ArithOp) (lhs rhs : Value) : Option Int :=
  match op with
  | .add =>
    if lhs.isTemp indvar then rhs.int?
    else if rhs.isTemp indvar then lhs.int?
    else none
  | .sub => if lhs.isTemp indvar then rhs.int?.bind fun c => fitI32? (-c) else none
  | _ => none

/-- The step from `indvar` to `next`: the first arithmetic that defines `next`
has to add a constant other than zero. -/
def step? (blocks : List Block) (next indvar : Temp) : Option Int :=
  let defines (i : Instr) : Bool :=
    match i with
    | .arith t _ _ _ _ => t = next
    | _ => false
  match (blocks.flatMap (·.instrs)).find? defines with
  | some (.arith _ op _ lhs rhs) => (addend? indvar op lhs rhs).filter (· ≠ 0)
  | _ => none

/-- The comparison that defines a temporary in a block: its operator and
operands, for integers only. -/
def comparison? (b : Block) (cond : Temp) : Option (CompOp × Value × Value) :=
  let defines (i : Instr) : Bool :=
    match i with
    | .comp t _ _ _ _ _ => t = cond
    | _ => false
  match b.instrs.find? defines with
  | some (.comp _ .icmp op _ lhs rhs) => some (op, lhs, rhs)
  | _ => none

/-- What is known of the exit test before a phi is chosen. -/
structure ExitTest where
  latch : Int
  entering : Int
  exiting : Int
  exit : Int
  cond : Temp
  op : CompOp
  lhs : Value
  rhs : Value

/-- The exit test of a loop, turned so that the loop goes on while it holds. -/
def exitTest? (f : Func) (t : LoopForest) (l : Loop) : Option ExitTest := do
  let latch ← l.singleLatch? f t
  let [entering] := l.outsidePreds f t | none
  let exiting ← l.singleExiting? f t
  let some (.branch _ (.temp cond) ifTrue ifFalse) := exiting.jump | none
  let exit ← (exiting.succ.map (·.number)).find? fun s => !t.contains l s
  let goesOnIfTrue := Label.ofBlock exit = ifFalse
  if !goesOnIfTrue && Label.ofBlock exit ≠ ifTrue then none
  let (op, lhs, rhs) ← comparison? exiting cond
  return ⟨latch.number, entering.number, exiting.id, exit, cond, if goesOnIfTrue then op else op.inverse,
    lhs, rhs⟩

/-- The induction a header phi gives, if it is one and the exit tests it. -/
def ofPhi? (header : Int) (blocks : List Block) (e : ExitTest) (p : Phi) :
    Option Induction := do
  let [_, _] := p.incoming | none
  let start ← p.incoming? (Label.ofBlock e.entering)
  let some (.temp next) := p.incoming? (Label.ofBlock e.latch) | none
  let step ← step? blocks next p.target
  let isIv (v : Value) := v.isTemp p.target || v.isTemp next
  let (tested, bound, op) ←
    if isIv e.lhs then some (e.lhs, e.rhs, e.op)
    else if isIv e.rhs then some (e.rhs, e.lhs, e.op.swap)
    else none
  let invariant := bound.temp?.all fun t => !(writesOf blocks).contains t
  let onNext := tested.isTemp next
  -- away from the latch only the phi itself can be tested
  if !invariant || (onNext && e.exiting ≠ e.latch) then none
  return ⟨header, e.latch, e.exiting, e.exit, p.target, next, start, step, bound, e.cond, op,
    onNext⟩

/-- The induction of a loop, by the first header phi that gives one. -/
def ofLoop? (f : Func) (t : LoopForest) (l : Loop) : Option Induction := do
  let e ← exitTest? f t l
  let header ← f.linked? l.header
  header.phis.findSome? (ofPhi? l.header.number (l.blocks f t) e)

/-- Whether the loop is left from its header and the header is not the latch:
then the test comes before the body. -/
def exitsInHeader (i : Induction) : Bool := i.exiting = i.header && i.exiting ≠ i.latch

/-- How often the body runs, where start and bound are constants and the loop
ends. -/
def tripCount? (i : Induction) : Option Int := do
  let start ← i.start.int?
  let bound ← i.bound.int?
  if i.exitsInHeader then runLength start bound i.step i.op
  else if i.onNext then return 1 + (← runLength (start + i.step) bound i.step i.op)
  else return 1 + (← runLength start bound i.step i.op)

/-- How often the loop goes back to its header. -/
def backedgeCount? (i : Induction) : Option Int :=
  i.tripCount?.map fun n => if i.exitsInHeader then n else n - 1

/-- The temporary the exit tests. -/
def tested (i : Induction) : Temp := if i.onNext then i.next else i.indvar

/-- An induction in one line. -/
def text (i : Induction) : String :=
  s!"indvar: {i.indvar.text} = {i.start.text}, +{i.step} while {i.tested.text} " ++
    s!"{i.op.text} {i.bound.text} ({i.cond.text}), exiting {(Label.ofBlock i.exiting).name}"

end Induction

end LoopLanes
