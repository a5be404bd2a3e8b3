/-
Well-formedness of functions.

`Func.verify` checks blocks, links and phis in block order, then that nothing is
defined twice, and last, in reachable code, that operand types agree and that
every value read is defined on all paths to the reader.  It answers the first
flaw it meets.
-/
import LoopLanes.Cfg.Dominator
import LoopLanes.Text.Quoted

namespace LoopLanes

/-- What can be wrong with a function. -/
inductive Flaw
  | duplicateBlock (block : Label)
  | noTerminator (block : Label)
  | strayLinks (block : Label) (targets links : List Label)
  | missingPredecessor (block pred : Label)
  | missingSuccessor (block succ : Label)
  | phiMismatch (phi : Temp) (block : Label)
  | definedTwice (temp : Temp)
  | unavailableIncoming (temp phi : Temp) (pred : Label)
  | illTyped (instr : Instr)
  | notDominated (temp : Temp) (instr : Instr)
  deriving DecidableEq

namespace Flaw

/-- A list of labels as it stands in messages. -/
def labelList (ls : List Label) : String :=
  "[" ++ ", ".intercalate (ls.map fun l => "Label \x7b name: " ++ Text.quoted l.name ++ " \x7d") ++ "]"

/-- The wording of each flaw. -/
def message : Flaw → String
  | duplicateBlock b => s!"duplicate block {b.name}"
  | noTerminator b => s!"block {b.name} has no terminator"
  | strayLinks b targets links =>
    s!"block {b.name} branches to {labelList targets} but links to {labelList links}"
  | missingPredecessor b p => s!"{b.name} is missing predecessor {p.name}"
  | missingSuccessor b s => s!"{b.name} is missing successor {s.name}"
  | phiMismatch p b => s!"phi {p.text} in {b.name} does not match the predecessors"
  | definedTwice t => s!"{t.text} is defined more than once"
  | unavailableIncoming t p l => s!"{t.text} used by phi {p.text} is not available from {l.name}"
  | illTyped i => s!"ill-typed instruction \x60{i.text}\x60"
  | notDominated t i => s!"{t.text} used by \x60{i.text}\x60 is not dominated by its definition"

end Flaw

/-- Where a temporary gets its value. -/
inductive DefSite
  | param
  | phi (block : Int)
  | instr (block : Int) (pos : Nat)
  deriving DecidableEq

/-- Fails with a flaw unless a condition holds. -/
def Flaw.unless (e : Flaw) (holds : Bool) : Except Flaw Unit :=
  if holds then .ok () else .error e

namespace Func

/-! ### Blocks, links and phis -/

/-- Whether two lists have the same members. -/
def sameMembers [BEq α] (as bs : List α) : Bool :=
  as.all bs.contains && bs.all as.contains

/-- Whether all members of a list are different. -/
def allDistinct [BEq α] : List α → Bool
  | [] => true
  | a :: as => !as.contains a && allDistinct as

/-- Whether a phi has one entry for every predecessor and no other. -/
def phiMatches (b : Block) (p : Phi) : Bool :=
  let labels := p.incoming.map (·.2)
  sameMembers labels (b.prev.map (·.label)) && allDistinct labels

/-- Checks one block; `before` holds the numbers of the blocks in front of it. -/
def checkBlock (f : Func) (before : List Int) (b : Block) : Except Flaw Unit := do
  Flaw.unless (.duplicateBlock b.label) !before.contains b.id
  let some jump := b.jump | throw (.noTerminator b.label)
  let links := b.succ.map (·.label)
  Flaw.unless (.strayLinks b.label jump.targets links) (links == jump.targets)
  b.succ.forM fun s =>
    Flaw.unless (.missingPredecessor s.label b.label)
      ((f.linked? s).any (·.prev.any (·.number == b.id)))
  b.prev.forM fun p =>
    Flaw.unless (.missingSuccessor p.label b.label)
      ((f.linked? p).any (·.succ.any (·.number == b.id)))
  b.phis.forM fun p => Flaw.unless (.phiMismatch p.target b.label) (phiMatches b p)

/-- Checks blocks in order. -/
def checkBlocks (f : Func) : List Int → List Block → Except Flaw Unit
  | _, [] => .ok ()
  | before, b :: bs => do
    checkBlock f before b
    checkBlocks f (b.id :: before) bs

/-! ### Definitions -/

/-- Every definition, in order. -/
def definitions (f : Func) : List (Temp × DefSite) :=
  let params := f.params.map fun t => (t, DefSite.param)
  params ++ f.blocks.flatMap fun b =>
    b.phis.map (fun p => (p.target, DefSite.phi b.id)) ++
      b.instrs.zipIdx.filterMap fun (i, pos) => i.write.map fun t => (t, DefSite.instr b.id pos)

/-- Fails at the first temporary that is defined a second time. -/
def checkDefinitions : List Temp → List (Temp × DefSite) → Except Flaw Unit
  | _, [] => .ok ()
  | seen, (t, _) :: rest =>
    if seen.contains t then .error (.definedTwice t)
    else checkDefinitions (t :: seen) rest

/-! ### Uses -/

/-- Whether a value is there at a position of a block; positions count the
instructions in front, and phis stand before them all. -/
def available (defs : List (Temp × DefSite)) (dom : DomTree) (t : Temp) (block : Int)
    (pos : Nat) : Bool :=
  t.isGlobal ||
    match defs.lookup t with
    | none => false
    | some .param => true
    | some (.phi b) => b == block || dom.dominates b block
    | some (.instr b p) => if b == block then p < pos else dom.dominates b block

/-- Checks that what a phi takes in is there at the end of each reachable
predecessor. -/
def checkIncoming (f : Func) (defs : List (Temp × DefSite)) (dom : DomTree)
    (reachable : List Int) (b : Block) (p : Phi) : Except Flaw Unit :=
  p.incoming.forM fun (v, l) =>
    match v.temp?, b.prev.find? (·.label == l) with
    | some t, some pred =>
      let pos := ((f.linked? pred).map (·.instrs.length)).getD 0
      Flaw.unless (.unavailableIncoming t p.target l)
        (!reachable.contains pred.number || available defs dom t pred.number pos)
    | _, _ => .ok ()

/-- Checks types and operands of an instruction or terminator. -/
def checkInstr (defs : List (Temp × DefSite)) (dom : DomTree) (block : Int) (pos : Nat)
    (i : Instr) : Except Flaw Unit := do
  Flaw.unless (.illTyped i) i.wellTyped
  i.readTemps.forM fun t => Flaw.unless (.notDominated t i) (available defs dom t block pos)

/-- Checks all uses in a block. -/
def checkUses (f : Func) (defs : List (Temp × DefSite)) (dom : DomTree)
    (reachable : List Int) (b : Block) : Except Flaw Unit := do
  b.phis.forM (checkIncoming f defs dom reachable b)
  (b.instrs ++ b.jump.toList).zipIdx.forM fun (i, pos) => checkInstr defs dom b.id pos i

/-- The first flaw of a function. -/
def verify (f : Func) : Except Flaw Unit := do
  checkBlocks f [] f.blocks
  checkDefinitions [] f.definitions
  let dom := DomTree.ofFunc f false
  let reachable := (dom.region? f.entry.id).getD []
  (f.blocks.filter fun b => reachable.contains b.id).forM
    (checkUses f f.definitions dom reachable)

/-- The flaw as an option. -/
def flaw? (f : Func) : Option Flaw :=
  match f.verify with
  | .ok () => none
  | .error e => some e

end Func

end LoopLanes
