/-
Static estimates of branch probabilities and block frequencies.

A branch out of the innermost loop of its block is taken once in 32 times;
otherwise the successors are equally likely.  Frequencies count visits per
visit of the loop's header: they flow along forward edges in topological
order, and the header of an inner loop runs as often as the estimate of its
trips says.
-/
import LoopLanes.Loop.Forest

namespace LoopLanes

/-- The probability that a branch stays in its loop. -/
def loopTakenProb : Float := 31.0 / 32.0

/-- A probability for each edge. -/
structure BranchProb where
  entries : List ((Int × Int) × Float)

namespace BranchProb

/-- The probabilities of the edges out of one block. -/
def ofBlock (t : LoopForest) (b : Block) : List ((Int × Int) × Float) :=
  let stays (target : Int) : Bool :=
    match t.owner? b.id with
    | some l => t.contains l target
    | none => true
  match b.succ.map (·.number) with
  | [] => []
  | [a] => [((b.id, a), 1.0)]
  | [a, c] =>
    if a = c then [((b.id, a), 1.0)]
    else
      let p : Float :=
        match stays a, stays c with
        | true, false => loopTakenProb
        | false, true => 1.0 - loopTakenProb
        | _, _ => 0.5
      [((b.id, a), p), ((b.id, c), 1.0 - p)]
  | succ => succ.map fun s => ((b.id, s), 1.0 / Float.ofNat succ.length)

/-- The probabilities of all edges. -/
def ofFunc (f : Func) (t : LoopForest) : BranchProb := ⟨f.blocks.flatMap (ofBlock t)⟩

/-- The probability of an edge; zero where there is none. -/
def get (p : BranchProb) (source target : Int) : Float :=
  (p.entries.reverse.lookup (source, target)).getD 0.0

end BranchProb

/-- Frequencies and open in-degrees while they are being propagated.  A block
that is reached again after all its edges were counted has less than none open,
and does not join the queue another time. -/
structure FrequencyState where
  freq : List (Int × Float)
  pending : List (Int × Int)
  queue : List Int

namespace LoopForest

/-- Whether a block is the header of its innermost loop. -/
def isHeader (t : LoopForest) (b : Int) : Bool := (t.owner? b).any (·.header.number == b)

/-- Whether an edge goes to the header of a loop from inside that loop. -/
def isBackedge (t : LoopForest) (source target : Int) : Bool :=
  (t.owner? target).any fun l => l.header.number == target && t.contains l source

end LoopForest

namespace FrequencyState

/-- Changes the value of a key in a table. -/
def change (k : Int) (g : α → α) (table : List (Int × α)) : List (Int × α) :=
  table.map fun e => if e.1 == k then (e.1, g e.2) else e

/-- Passes the frequency `cur` on along an edge; a block all of whose forward
edges are done joins the queue. -/
def pass (p : BranchProb) (source : Int) (cur : Float) (s : FrequencyState) (target : Int) :
    FrequencyState :=
  let freq := change target (· + cur * p.get source target) s.freq
  match s.pending.lookup target with
  | some d => ⟨freq, setEntry target (d - 1) s.pending,
      if d = 1 then s.queue ++ [target] else s.queue⟩
  | none => ⟨freq, s.pending, s.queue⟩

end FrequencyState

namespace Loop

variable (f : Func) (t : LoopForest) (l : Loop)

/-- The successors of a block inside the loop, back edges left out. -/
def forwardSucc (b : Block) : List Int :=
  (b.succ.map (·.number)).filter fun s => t.contains l s && !t.isBackedge b.id s

/-- Works through the queue; every number enters it once, and the header's once
more at the start, which bounds the fuel. -/
def propagate (p : BranchProb) : Nat → FrequencyState → FrequencyState
  | 0, s => s
  | fuel + 1, s =>
    match s.queue with
    | [] => s
    | id :: queue =>
      let s := { s with queue := queue }
      match f.block? id with
      | none => propagate p fuel s
      | some b =>
        let scale : Float := 1.0 / (1.0 - loopTakenProb)
        let freq :=
          if id ≠ l.header.number && t.isHeader id then
            FrequencyState.change id (· * scale) s.freq
          else s.freq
        let cur := (freq.lookup id).getD 0.0
        let s := (l.forwardSucc t b).foldl (FrequencyState.pass p id cur) { s with freq := freq }
        propagate p fuel s

/-- The frequency of each block of the loop, per visit of its header. -/
def blockFrequency (p : BranchProb) : List (Int × Float) :=
  let blocks := l.blocks f t
  let ids := (blocks.map (·.id)).eraseDups
  let targets := blocks.flatMap (l.forwardSucc t)
  let pending := ids.map fun id => (id, (targets.count id : Int))
  let freq := setEntry l.header.number 1.0 (ids.map fun id => (id, (0.0 : Float)))
  (l.propagate f t p (f.blocks.length + 1) ⟨freq, pending, [l.header.number]⟩).freq

end Loop

end LoopLanes
