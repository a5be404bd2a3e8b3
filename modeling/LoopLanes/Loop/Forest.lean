/-
The forest of natural loops.

A block that dominates one of its predecessors is the header of a loop; the loop
holds whatever reaches such a predecessor without passing the header.  Loops are
found along the dominator tree, children first, so that inner loops come before
the loops around them and have smaller numbers.  A root, number 0, stands for
the whole function.
-/
import LoopLanes.Cfg.Dominator
import LoopLanes.Basic.Sorting
import LoopLanes.Basic.Table

namespace LoopLanes

/-- A loop of the forest. -/
structure Loop where
  id : Nat
  header : BlockRef
  /-- the loop around this one; only the root has none -/
  outer : Option Nat
  level : Nat
  subloops : List Nat
  deriving DecidableEq, Inhabited, Repr

/-- All loops, the root first, and the innermost loop of each block. -/
structure LoopForest where
  loops : List Loop
  owner : List (Int × Nat)
  deriving Inhabited

/-- Loops while they are being found: headers with the loop around them, if it
is known yet, in order of discovery. -/
structure LoopSearch where
  found : List (BlockRef × Option Nat)
  owner : List (Int × Nat)

namespace LoopSearch

/-- The innermost loop of a block found so far. -/
def owner? (s : LoopSearch) (block : Int) : Option Nat := s.owner.lookup block

/-- The loop around loop `id`; numbers count from 1. -/
def outer? (s : LoopSearch) (id : Nat) : Option Nat := (s.found[id - 1]?).bind (·.2)

/-- The outermost of the loops around a loop. -/
def outermost (s : LoopSearch) : Nat → Nat → Nat
  | 0, id => id
  | fuel + 1, id =>
    match s.outer? id with
    | some o => outermost s fuel o
    | none => id

/-- The header of loop `id`. -/
def header? (s : LoopSearch) (id : Nat) : Option BlockRef := (s.found[id - 1]?).map (·.1)

/-- The predecessors of a block. -/
def prevs (f : Func) (r : BlockRef) : List BlockRef := ((f.linked? r).map (·.prev)).getD []

/-- Collects the blocks of loop `new` from a stack of blocks known to belong to
it.  A block that has no loop joins it; a block of another loop makes the
outermost loop around that one a part of it.  The predecessors of a block are
pushed at most once as the block joins, and once for each part that it is the
header of, which bounds the fuel. -/
def collect (f : Func) (new : Nat) : Nat → List BlockRef → LoopSearch → LoopSearch
  | 0, _, s => s
  | _, [], s => s
  | fuel + 1, b :: stack, s =>
    match s.owner? b.number with
    | none =>
      collect f new fuel ((prevs f b).reverse ++ stack)
        { s with owner := setEntry b.number new s.owner }
    | some l =>
      let part := s.outermost s.found.length l
      if part = new then collect f new fuel stack s
      else
        let more := ((s.header? part).map (prevs f)).getD []
        collect f new fuel (more.reverse ++ stack)
          { s with found := s.found.modify (part - 1) fun e => (e.1, some new) }

/-- Finds the loop of a header, if it is one. -/
def visit (f : Func) (dom : DomTree) (header : BlockRef) (s : LoopSearch) : LoopSearch :=
  let latches := (prevs f header).filter fun p => dom.dominates header.number p.number
  if latches.isEmpty then s
  else
    let new := s.found.length + 1
    collect f new ((s.found.length + 2) * f.edgeCount + 1) latches.reverse
      ⟨s.found ++ [(header, none)], setEntry header.number new s.owner⟩

/-- Visits a part of the dominator tree, children first; `fuel` bounds the
depth. -/
def walk (f : Func) (dom : DomTree) : Nat → BlockRef → LoopSearch → LoopSearch
  | 0, _, s => s
  | fuel + 1, b, s =>
    visit f dom b ((dom.children b.number).foldl (fun s c => walk f dom fuel c s) s)

/-- Number of loops around a loop, the root included. -/
def depth (s : LoopSearch) : Nat → Nat → Nat
  | 0, _ => 0
  | fuel + 1, id =>
    match s.outer? id with
    | some o => depth s fuel o + 1
    | none => 1

end LoopSearch

namespace LoopForest

/-- The loops of a function.  Sub-loops are listed by the place of their headers
in the function. -/
def ofFunc (f : Func) (dom : DomTree) : LoopForest :=
  let s := LoopSearch.walk f dom (f.blocks.length + 1) f.entry.ref ⟨[], []⟩
  let headerPlace (id : Nat) : Nat :=
    ((s.header? id).bind fun h => f.position? h.number).getD 0
  let ids := insertSort (fun a b => headerPlace a ≤ headerPlace b) (List.range' 1 s.found.length)
  let outer (id : Nat) : Nat := (s.outer? id).getD 0
  let subloops (id : Nat) := ids.filter fun sub => outer sub = id
  let root : Loop := ⟨0, f.entry.ref, none, 0, subloops 0⟩
  let loops := s.found.zipIdx.map fun ((header, _), i) =>
    (⟨i + 1, header, some (outer (i + 1)), s.depth s.found.length (i + 1), subloops (i + 1)⟩ : Loop)
  ⟨root :: loops, s.owner⟩

/-- The loop of a number. -/
def loop? (t : LoopForest) (id : Nat) : Option Loop := t.loops[id]?

/-- The root. -/
def root (t : LoopForest) : Loop := t.loops.headD default

/-- The innermost loop of a block. -/
def owner? (t : LoopForest) (block : Int) : Option Loop :=
  (t.owner.lookup block).bind t.loop?

/-- The loop with a header, the root aside: the innermost loop of the header, if
it starts there. -/
def withHeader? (t : LoopForest) (header : Int) : Option Loop :=
  (t.owner? header).filter (·.header.number == header)

/-- Whether loop `id` is loop `a` or lies inside it; `fuel` bounds the depth. -/
def isInside (t : LoopForest) (a : Nat) : Nat → Nat → Bool
  | 0, id => id == a
  | fuel + 1, id =>
    id == a ||
      match (t.loop? id).bind (·.outer) with
      | some o => isInside t a fuel o
      | none => false

/-- Whether a block belongs to a loop or to one inside it; the root has every
block. -/
def contains (t : LoopForest) (l : Loop) (block : Int) : Bool :=
  l.outer.isNone ||
    match t.owner? block with
    | some o => t.isInside l.id t.loops.length o.id
    | none => false

/-- A loop followed by the loops inside it, depth first; `fuel` bounds the
depth. -/
def preorder (t : LoopForest) : Nat → Nat → List Loop
  | 0, _ => []
  | fuel + 1, id =>
    match t.loop? id with
    | none => []
    | some l => l :: l.subloops.flatMap (preorder t fuel)

/-- All loops, the root first, each before the loops inside it. -/
def all (t : LoopForest) : List Loop := t.preorder (t.loops.length + 1) 0

end LoopForest

namespace Loop

/-- The root stands for the whole function. -/
def isRoot (l : Loop) : Bool := l.outer.isNone

/-- Whether there are no loops inside. -/
def isInnermost (l : Loop) : Bool := l.subloops.isEmpty

/-- The label of the header. -/
def name (l : Loop) : Label := l.header.label

/-- A loop in one line. -/
def text (t : LoopForest) (l : Loop) : String :=
  let outer := ((l.outer.bind t.loop?).map (·.name.name)).getD "None"
  s!"loop {l.id} outer: {outer}, header: {l.name.name}, level: {l.level}, " ++
    s!"subloops: {l.subloops.length}"

/-! ### Blocks of a loop -/

variable (f : Func) (t : LoopForest) (l : Loop)

/-- The blocks of a loop, in function order. -/
def blocks : List Block := f.blocks.filter fun b => t.contains l b.id

/-- The links of the header to its predecessors. -/
def headerPrev : List BlockRef := ((f.linked? l.header).map (·.prev)).getD []

/-- Predecessors of the header inside the loop, each once. -/
def latches : List BlockRef :=
  BlockRef.distinct ((l.headerPrev f).filter fun b => t.contains l b.number)

/-- The latch, if there is only one. -/
def singleLatch? : Option BlockRef :=
  match l.latches f t with
  | [b] => some b
  | _ => none

/-- Predecessors of the header outside the loop, each once. -/
def outsidePreds : List BlockRef :=
  BlockRef.distinct ((l.headerPrev f).filter fun b => !t.contains l b.number)

/-- The only block that enters the loop, if it leads nowhere else. -/
def preheader? : Option BlockRef :=
  match l.outsidePreds f t with
  | [p] => if ((f.linked? p).map (·.succ.length)) = some 1 then some p else none
  | _ => none

/-- Blocks with a successor outside the loop. -/
def exitingBlocks : List Block :=
  (l.blocks f t).filter fun b => b.succ.any fun s => !t.contains l s.number

/-- The exiting block, if there is only one. -/
def singleExiting? : Option Block :=
  match l.exitingBlocks f t with
  | [b] => some b
  | _ => none

/-- Blocks outside the loop that it may go on to, each once. -/
def exits : List BlockRef :=
  BlockRef.distinct <| (l.exitingBlocks f t).flatMap fun b =>
    b.succ.filter fun s => !t.contains l s.number

/-- Number of phis and instructions. -/
def size : Nat := (l.blocks f t).foldr (fun b n => b.size + n) 0

end Loop

/-- The temporaries that blocks define. -/
def writesOf (bs : List Block) : List Temp := bs.flatMap Block.writes

end LoopLanes
