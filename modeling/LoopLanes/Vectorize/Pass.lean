/-
The vectorizer.

Outer loops are tried first; where one is left alone, the loops inside it are
tried in turn.  A loop goes through the gate, gets a width, is prepared, its
header phis are given shapes, and at last its body is lined up and widened.
Until it is prepared a loop may be left alone; a failure after that ends the
run.
-/
import LoopLanes.Vectorize.Config
import LoopLanes.Vectorize.Skip
import LoopLanes.Vectorize.Report
import LoopLanes.Widen.Stages
import LoopLanes.Cfg.Verify

namespace LoopLanes

/-- What became of a loop. -/
inductive LoopOutcome
  | vectorized (width : Nat)
  /-- prepared, the body left scalar -/
  | prepared (width : Nat)
  | skipped (reason : SkipReason)
  deriving DecidableEq

/-- Whether a loop was changed. -/
def LoopOutcome.isChanged : LoopOutcome → Bool
  | skipped _ => false
  | _ => true

/-- A failure that ends a run. -/
inductive PassError
  | flaw (func : String) (flaw : Flaw)
  | unknownBlock (func : String) (block : Label)
  | loopLost (func : String) (header : Label)
  | widen (func : String) (loop : Label) (cause : WidenError)
  deriving DecidableEq

/-- The wording of each failure. -/
def PassError.message : PassError → String
  | flaw f e => s!"malformed IR in function {f}: {e.message}"
  | unknownBlock f l => s!"malformed IR in function {f}: jump to unknown block {l.name}"
  | loopLost f l => s!"malformed IR in function {f}: loop {l.name} disappeared"
  | widen f l e => s!"vectorization of loop {l.name} in {f} failed: {e.message}"

/-- What is kept through all functions of a run, and from run to run. -/
structure RunState where
  config : Config
  model : CostModel
  events : List Event
  /-- whether the settings have been reported -/
  announced : Bool
  /-- function, header and outcome of every loop, in the order of visits -/
  outcomes : List (String × Label × LoopOutcome)

/-- A vectorizer with a cost model. -/
def RunState.start (config : Config) (model : CostModel) : RunState :=
  ⟨config, model, [], false, []⟩

/-- A vectorizer that estimates costs for the target its settings describe. -/
def RunState.ofConfig (config : Config) : RunState :=
  .start config (.target (.ofBits config.maxVectorBits))

/-- Report lines so far. -/
def RunState.lines (s : RunState) : List String := s.events.filterMap Event.line?

/-- A part of a run. -/
abbrev Pass := ExceptT PassError (StateM RunState)

namespace Pass

/-- Keeps an event. -/
def tell (e : Event) : Pass Unit := modify fun s => { s with events := s.events ++ [e] }

/-- Logs a text. -/
def log (level : LogLevel) (s : String) : Pass Unit := tell (.log level s)

/-- A report line for diagnostics only. -/
def diag (s : String) : Pass Unit := do
  if (← get).config.diagnostics then tell (.line s!"{reportName}: {s}")

/-- A report line that is logged where there are no diagnostics. -/
def report (s : String) : Pass Unit := do
  let line := s!"{reportName}: {s}"
  if (← get).config.diagnostics then tell (.line line) else log .info line

end Pass

/-- The width of a loop that passed the gate.  A width in the hints wins over a
forced one; where neither is given, the cost model is asked, starting from the
dependence distance. -/
def Pass.selectWidth (g : GateResult) (f : Func) (r : Region) : Pass (Except SkipReason Nat) := do
  let s ← get
  let fixed ←
    match g.note.width, s.config.forceWidth with
    | some w, some forced =>
      Pass.report
        s!"configuration conflict: loop width {w} overrides {Config.forceWidthVar}={forced}"
      pure (some w)
    | some w, none => pure (some w)
    | none, some forced =>
      Pass.diag s!"with user-provided vector width ({Config.forceWidthVar}={forced})"
      pure (some forced)
    | none, none => pure none
  match fixed with
  | some w =>
    if w ≤ 1 then return .error .widthOne
    else if maxVectorWidth < w then return .error (.widthTooLarge w)
    else return .ok w
  | none =>
    let refined := s.model.pickWidth f r g.depDist
    if refined ≤ 1 then return .error .notBeneficial
    if refined ≠ g.depDist then
      Pass.diag
        s!"costModel: refined vector width to {refined} from {distanceText g.depDist}"
    return .ok refined

/-- The shapes of header phis, each accepted reduction logged. -/
def Pass.headerShapes (r : Recurrences) :
    List Phi → Pass (Except SkipReason (List (Temp × LaneShape)))
  | [] => return .ok []
  | p :: ps => do
    match r.headerShape p.target with
    | .error e => return .error e
    | .ok s =>
      if (r.stride? p.target).isNone then
        Pass.log .debug s!"header phi {p.target.text} has shape {s.text}"
      match ← Pass.headerShapes r ps with
      | .error e => return .error e
      | .ok rest => return .ok ((p.target, s) :: rest)

/-- The forest of a function as it is now. -/
def Func.forest (f : Func) : LoopForest := .ofFunc f (DomTree.ofFunc f false)

/-- A function with the counter for fresh temporaries. -/
structure Work where
  func : Func
  temps : TempCounter

namespace Work

/-- Leaves a loop alone. -/
def skip (w : Work) (l : Loop) (reason : SkipReason) : Pass (LoopOutcome × Work) := do
  Pass.diag s!"skip {l.name.name}: {reason.message}"
  return (.skipped reason, w)

/-- Logs what is known of a plan. -/
def logPlan (l : Loop) (p : SplitPlan) : Pass Unit := do
  match p.kind with
  | .inPlace .. =>
    Pass.log .debug
      s!"{l.name.name}: trip count is a multiple of {p.width}, no remainder"
  | .split s =>
    if let some (main, rest) := s.counts then
      Pass.log .debug s!"vector iterations: {main}, remainder: {rest}"

/-- Marks the loops that come of a prepared one: neither is looked at again, and
the main loop keeps no wish. -/
def markPrepared (f : Func) (header prepared : Int) : Except PassError Func := do
  let done : LoopNote := { LoopNote.empty with vectorized := some true }
  let t := f.forest
  let some l := t.withHeader? header | throw (.loopLost f.name (.ofBlock header))
  let some m := t.withHeader? prepared | throw (.loopLost f.name (.ofBlock prepared))
  return m.annotate (m.clearAnnotations (l.annotate f t done) t) t done

/-- Lines up and widens a prepared loop. -/
def lower (w : Work) (loop : Label) (i : LaneInfo) : Pass Work := do
  let orFail {α : Type} (r : Except WidenError α) : Pass α :=
    match r with
    | .ok a => return a
    | .error e => throw (.widen w.func.name loop e)
  let l := Lowering.analyze w.func w.temps i
  if l.isDivergent then
    let header := i.region.header.label.name
    let shown := ", ".intercalate (l.branches.map toString)
    Pass.log .debug s!"{header}: linearize varying branches in [{shown}]"
  let (f, temps) ← orFail (← orFail l.lineUp).widen
  return ⟨f, temps⟩

/-- Puts a plan into the function and, unless only preparing is asked for, turns
the main loop into vector code. -/
def transform (w : Work) (l : Loop) (p : SplitPlan) (shapes : List (Temp × LaneShape)) :
    Pass (LoopOutcome × Work) := do
  let name := w.func.name
  let (prepared, f) ←
    match p.commit w.func with
    | .error b => throw (.unknownBlock name b)
    | .ok r => pure r
  let f ← ExceptT.mk (pure (markPrepared f l.header.number prepared.header))
  let s ← get
  if !s.announced then
    Pass.report s!"config: {s.config.text}"
    modify fun s => { s with announced := true }
  if s.config.emitPrepared then return (.prepared p.width, ⟨f, w.temps⟩)
  let t := f.forest
  let main := (t.withHeader? prepared.header).getD l
  let info := LaneInfo.ofRegion f p.width (.ofLoop f t main)
  let info := shapes.foldl (fun i e => i.pin e.1 e.2) info
  let info := prepared.uniforms.foldl (fun i u => i.pin u .uniform) info
  let w ← lower ⟨f, w.temps⟩ l.name info
  if let some e := w.func.flaw? then throw (.flaw name e)
  Pass.log .info s!"vectorized {l.name.name} in {name} with width {p.width}"
  return (.vectorized p.width, w)

/-- Tries one loop. -/
def visitLoop (w : Work) (t : LoopForest) (l : Loop) : Pass (LoopOutcome × Work) := do
  let f := w.func
  Pass.log .debug s!"{l.name.name}: {(l.effectiveNote f t).text}"
  match l.gate f t with
  | .error e => skip w l e
  | .ok g =>
    Pass.diag g.note.text
    let alignment := l.tripAlignment f t
    match ← Pass.selectWidth g f (.ofLoop f t l) with
    | .error e => skip w l e
    | .ok width =>
      Pass.report (s!"Vectorize {l.name.name} in {f.name} with VW: {width} , " ++
        s!"Dependence Distance: {distanceText g.depDist} and TripAlignment: {alignment}")
      let r := Recurrences.ofLoop f t l
      let (plan, temps) := (SplitPlan.make f t l width alignment r).run.run w.temps
      let w : Work := ⟨f, temps⟩
      match plan with
      | .error e => skip w l (.shape e)
      | .ok p =>
        logPlan l p
        let r := if p.isSplit then r.rename fun t => (p.tempMap.lookup t).getD t else r
        match ← Pass.headerShapes r (p.headerPhis f) with
        | .error e => skip w l e
        | .ok shapes => transform w l p shapes

/-- Tries the loop of a header, and the loops inside it where it is left alone;
`fuel` bounds the depth.  Answers whether anything changed. -/
def visit : Nat → Work → Int → Pass (Bool × Work)
  | 0, w, _ => return (false, w)
  | fuel + 1, w, header => do
    let t := w.func.forest
    match t.withHeader? header with
    | none => return (false, w)
    | some l =>
      let subloops := (l.subloops.filterMap t.loop?).map (·.header.number)
      let (outcome, w) ← visitLoop w t l
      modify fun s =>
        { s with outcomes := s.outcomes ++ [(w.func.name, .ofBlock header, outcome)] }
      if outcome.isChanged then return (true, w)
      subloops.foldlM
        (fun (changed, w) h => do
          let (c, w) ← visit fuel w h
          return (changed || c, w))
        (false, w)

/-- Tries all loops of a function. -/
def run (w : Work) : Pass (Bool × Work) := do
  Pass.diag s!"run on {w.func.name}"
  if (← get).config.printFunction then
    Pass.report s!"-- loop vectorizer --\n{w.func.text}"
  let t := w.func.forest
  let headers := (t.root.subloops.filterMap t.loop?).map (·.header.number)
  headers.foldlM
    (fun (changed, w) h => do
      let (c, w) ← visit (w.func.blocks.length + 1) w h
      return (changed || c, w))
    (false, w)

end Work

namespace Program

/-- Vectorizes functions one after the other. -/
def vectorizeFuncs : List Func → TempCounter → Pass (Bool × List Func × TempCounter)
  | [], temps => return (false, [], temps)
  | f :: fs, temps => do
    let (c, w) ← Work.run ⟨f, temps⟩
    let (cs, fs, temps) ← vectorizeFuncs fs w.temps
    return (c || cs, w.func :: fs, temps)

/-- Vectorizes a program; answers whether anything changed. -/
def vectorize (p : Program) : Pass (Bool × Program) := do
  if (← get).config.disabled then
    Pass.log .debug "loop vectorizer disabled"
    return (false, p)
  let (changed, funcs, temps) ← vectorizeFuncs p.funcs p.temps
  return (changed, ⟨funcs, temps⟩)

/-- Vectorizes a number of times, unless a run fails.  Answers for every run that
did not fail whether it changed anything, the failure, and the program and the
state at the end. -/
def vectorizeTimes (p : Program) : Nat → RunState →
    List Bool × Option PassError × Program × RunState
  | 0, s => ([], none, p, s)
  | n + 1, s =>
    match p.vectorize.run.run s with
    | (.error e, s) => ([], some e, p, s)
    | (.ok (changed, q), s) =>
      let (rest, failure, q, s) := vectorizeTimes q n s
      (changed :: rest, failure, q, s)

end Program

end LoopLanes
