/-
Step-counted execution of programs, lane by lane.

A vector instruction computes its lanes one after the other; a scalar one does
so too where an operand has several lanes.  Every instruction and every
terminator counts a step, and no more than `maxSteps` steps are made.  Hence
`runBlocks` descends at most once per step left, which gives the fuel; it is
never used up before the step limit is met.
-/
import LoopLanes.Lanes.Machine
import LoopLanes.Cfg.Block

namespace LoopLanes

namespace Builtin

/-- Functions that every program may call without defining them. -/
def names : List String := ["putint", "putch", "putfloat", "putarray"]

/-- An argument that has to be there. -/
def arg (name : String) (args : List Cell) (i : Nat) : Exec Cell :=
  match args[i]? with
  | some v => return v
  | none => throw (.unsupported s!"{name} without argument")

/-- One element of a printed array. -/
def elementText : Cell → String
  | .int v => toString v.toInt
  | .float v => Binary32.fixedText v
  | .ptr p => s!"&{p}"

/-- The character of a code; a question mark where there is none. -/
def charText (code : Int32) : String :=
  let n := code.toUInt32.toNat
  if n.isValidChar then String.singleton (Char.ofNat n) else "?"

/-- Calls a builtin function. -/
def call (name : String) (args : List Cell) : Exec (Option Cell) := do
  match name with
  | "putint" =>
    let v ← Exec.lift (← arg name args 0).toInt32
    Exec.print (toString v.toInt)
  | "putch" =>
    let v ← Exec.lift (← arg name args 0).toInt32
    Exec.print (charText v)
  | "putfloat" =>
    let v ← Exec.lift (← arg name args 0).toFloat32
    Exec.print (Binary32.fixedText v)
  | "putarray" =>
    let n ← Exec.lift (← arg name args 0).toInt32
    let len := n.toInt.toNat
    let pointer ← arg name args 1
    let values ← Exec.lift ((← get).readArray pointer len)
    Exec.print (s!"{len}: " ++ " ".intercalate (values.map elementText))
  | _ => throw (.unknownFunction name)
  return none

end Builtin

/-- How calls are made: the name of a function and its arguments. -/
abbrev Caller := String → List Cell → Exec (Option Cell)

namespace Instr

/-- The lane of an operand, in a run. -/
def operand (fr : Frame) (i : Nat) (v : Value) : Exec Cell := Exec.lift (fr.lane v i)

/-- Executes one lane of a scalar instruction. -/
def execLane (call : Caller) (fr : Frame) (lane : Nat) : Instr → Exec (Option Cell)
  | .arith _ op _ lhs rhs => do
    let a ← operand fr lane lhs
    let b ← operand fr lane rhs
    return some (← Exec.lift (Cell.arith op a b))
  | .comp _ _ op _ lhs rhs => do
    let a ← operand fr lane lhs
    let b ← operand fr lane rhs
    return some (← Exec.lift (Cell.compare op a b))
  | .select _ _ cond lhs rhs => do
    if (← operand fr lane cond).isTrue then return some (← operand fr lane lhs)
    else return some (← operand fr lane rhs)
  | .load _ _ addr => do
    let a ← operand fr lane addr
    return some (← Exec.lift ((← get).load a))
  | .store value addr => do
    let a ← operand fr lane addr
    let v ← operand fr lane value
    set (← Exec.lift ((← get).store a v))
    return none
  | .gep _ _ addr offset => do
    let o ← Exec.lift (← operand fr lane offset).toInt32
    let a ← operand fr lane addr
    return some (← Exec.lift (a.offset o.toInt))
  | .call _ _ callee args => do
    let args ← args.mapM fun a => operand fr lane a.2
    call callee args
  | i => throw (.unsupported i.text)

/-- Executes lanes one after the other, those left out of `active` not at
all. -/
def execLanes (call : Caller) (fr : Frame) (i : Instr) (width : Nat) (active : Nat → Bool) :
    Exec Lanes :=
  (List.range width).mapM fun lane => do
    if active lane then return (← execLane call fr lane i).getD default
    else return default

/-- Whether a lane takes part under a mask; a mask of one lane is for all. -/
def maskActive (mask : Lanes) (lane : Nat) : Bool :=
  ((mask[lane]?).or mask.head?).any Cell.isTrue

/-- Folds lanes with an operator. -/
def foldLanes (fr : Frame) (op : ArithOp) (vector : Value) (width : Nat) :
    Except RunError Cell := do
  let first ← fr.lane vector 0
  (List.range' 1 (width - 1)).foldlM
    (fun acc lane => do Cell.arith op acc (← fr.lane vector lane)) first

/-- The widest of the operands that are temporaries; one if there is none. -/
def widest (fr : Frame) (i : Instr) : Nat :=
  ((i.readTemps.map fr.width).max?).getD 1

/-- Computes all lanes of an instruction. -/
def lanes (call : Caller) (fr : Frame) : Instr → Exec Lanes
  | .vec width mask inner => do
    match mask with
    | none => execLanes call fr inner width fun _ => true
    | some m =>
      let m ← Exec.lift (fr.read m)
      execLanes call fr inner width (maskActive m)
  | .ladder _ _ base stride width => do
    let base ← Exec.lift (fr.readUniform base)
    Exec.lift ((List.range width).mapM fun (lane : Nat) => base.offset (lane * stride))
  | .buildVec _ _ values => Exec.lift (values.mapM fr.readUniform)
  | .reduce _ op _ vector width => return [← Exec.lift (foldLanes fr op vector width)]
  | i => execLanes call fr i (widest fr i) fun _ => true

/-- Executes an instruction and keeps what it defines. -/
def exec (call : Caller) (fr : Frame) (i : Instr) : Exec Frame := do
  let values ← lanes call fr i
  match i.write with
  | some t => return setEntry t values fr
  | none => return fr

end Instr

namespace Block

/-- The values of the phis of a block entered from a label, all read before any
is written. -/
def phiValues (b : Block) (fr : Frame) (source : Label) : Except RunError (List (Temp × Lanes)) :=
  b.phis.mapM fun p =>
    match p.incoming? source with
    | none => .error (.unsupported s!"{p.text} from {source.name}")
    | some v => (fr.read v).map fun lanes => (p.target, lanes)

/-- Enters a block; the entry of a function is not entered from anywhere. -/
def enter (b : Block) (fr : Frame) : Option Label → Except RunError Frame
  | none => .ok fr
  | some source => (b.phiValues fr source).map (·.foldl (fun fr e => setEntry e.1 e.2 fr) fr)

/-- Executes the instructions of a block, a step each. -/
def execBody (call : Caller) (b : Block) (fr : Frame) : Exec Frame :=
  b.instrs.foldlM (fun fr i => do Exec.tick; i.exec call fr) fr

end Block

/-- How a block ends. -/
inductive Leaving
  | jump (target : Label)
  | ret (value : Option Cell)

/-- Executes a terminator. -/
def Block.leave (b : Block) (fr : Frame) : Except RunError Leaving :=
  match b.jump with
  | none => .error (.unsupported s!"{b.label.name} has no terminator")
  | some (.jump l) => .ok (.jump l)
  | some (.branch _ cond l m) =>
    (fr.readUniform cond).map fun c => .jump (if c.isTrue then l else m)
  | some (.ret none) => .ok (.ret none)
  | some (.ret (some v)) => (fr.readUniform v).map fun c => .ret (some c)
  | some i => .error (.unsupported i.text)

namespace Program

/-- The frame of a function called with some arguments; those that are missing
stay without value. -/
def frameOf (f : Func) (args : List Cell) : Frame :=
  (f.params.zip args).foldl (fun fr (t, v) => setEntry t [v] fr) []

/-- Runs a function from a block on. -/
def runBlocks (p : Program) : Nat → Func → Block → Option Label → Frame → Exec (Option Cell)
  | 0, _, _, _, _ => throw (.stepLimit maxSteps)
  | fuel + 1, f, b, source, fr => do
    let fr ← Exec.lift (b.enter fr source)
    let call : Caller := fun name args =>
      if Builtin.names.contains name then Builtin.call name args
      else
        match p.func? name with
        | none => throw (.unknownFunction name)
        | some g => runBlocks p fuel g g.entry none (frameOf g args)
    let fr ← b.execBody call fr
    Exec.tick
    match ← Exec.lift (b.leave fr) with
    | .ret v => return v
    | .jump l =>
      match f.labelled? l with
      | none => throw (.unknownBlock l.name)
      | some next => runBlocks p fuel f next (some b.label) fr

/-- Runs a function of the program with the given arguments. -/
def run (p : Program) (name : String) (args : List Cell) : Exec (Option Cell) := do
  match p.func? name with
  | none => throw (.unknownFunction name)
  | some f =>
    let fuel := maxSteps - wrapU64 ((← get).steps + 1) + 3
    runBlocks p fuel f f.entry none (frameOf f args)

end Program

end LoopLanes
