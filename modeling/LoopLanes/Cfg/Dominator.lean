/-
Dominators and post-dominators.

A block dominates whatever cannot be reached once it is taken out of the graph.
Dominance is a relation between numbers; of several blocks of one number, the
first that is reached stands for all.  The immediate dominator is the strict
dominator that itself dominates the fewest blocks.  For post-dominators the edges are reversed and every block
without successors is a root.
-/
import LoopLanes.Cfg.Edit

namespace LoopLanes

namespace Func

/-- Number of links in one direction. -/
def edgeCount (f : Func) : Nat :=
  f.blocks.foldr (fun b n => b.prev.length + b.succ.length + n) 0

/-- Where a search starts. -/
def roots (f : Func) (reverse : Bool) : List Block :=
  if reverse then f.blocks.filter (·.succ.isEmpty) else f.blocks.take 1

/-- The neighbours in the direction of search. -/
def next (reverse : Bool) (b : Block) : List BlockRef := if reverse then b.prev else b.succ

/-- The numbers of the blocks found from a work list, breadth first, without
entering the block `removed`.  Every link is followed at most once, which bounds
the fuel. -/
def search (f : Func) (reverse : Bool) (removed : Option Int) :
    Nat → List Block → List Int → List Int
  | 0, _, seen => seen
  | _, [], seen => seen
  | fuel + 1, b :: work, seen =>
    if seen.contains b.id then search f reverse removed fuel work seen
    else
      let more := (next reverse b).filter fun r => some r.number != removed
      search f reverse removed fuel (work ++ more.filterMap f.linked?) (b.id :: seen)

/-- The blocks that can be reached from the roots without entering `removed`. -/
def reachableWithout (f : Func) (reverse : Bool) (removed : Option Int) : List Int :=
  let roots := (f.roots reverse).filter fun b => some b.id != removed
  f.search reverse removed (f.edgeCount + roots.length + 1) roots []

end Func

/-- The element with the smallest key, the first of several. -/
def firstMin? (key : α → Nat) : List α → Option α
  | [] => none
  | a :: as =>
    match firstMin? key as with
    | none => some a
    | some b => if key a ≤ key b then some a else some b

/-- The dominance relation of a function and its tree. -/
structure DomTree where
  reverse : Bool
  /-- per reachable block, in order, what it dominates -/
  regions : List (Int × List Int)
  /-- per block that has one, in order, its immediate dominator -/
  parents : List (BlockRef × Int)

namespace DomTree

/-- What each reachable block dominates, itself included. -/
def regionsOf (f : Func) (reverse : Bool) : List (Int × List Int) :=
  let all := f.reachableWithout reverse none
  (f.blocks.filter fun b => all.contains b.id).map fun b =>
    let rest := f.reachableWithout reverse (some b.id)
    (b.id, (f.blocks.map (·.id)).filter fun id => all.contains id && !rest.contains id)

/-- What a block dominates according to a table; none if it is not there. -/
def lookup (regions : List (Int × List Int)) (id : Int) : Option (List Int) :=
  match regions.filter (·.1 == id) with
  | [] => none
  | rs => some (rs.flatMap (·.2))

/-- Computes dominators, or post-dominators when `reverse` is set. -/
def ofFunc (f : Func) (reverse : Bool) : DomTree :=
  let regions := regionsOf f reverse
  let ids := f.blocks.map (·.id)
  let region (id : Int) := (lookup regions id).getD []
  let strict (id : Int) := ids.filter fun d => d != id && (region d).contains id
  let parent? (id : Int) := firstMin? (fun d => (region d).length) (strict id)
  ⟨reverse, regions, f.blocks.filterMap fun b => (parent? b.id).map fun d => (b.ref, d)⟩

/-- The blocks a reachable block dominates. -/
def region? (t : DomTree) (id : Int) : Option (List Int) := lookup t.regions id

/-- Whether `a` dominates `b`; every reachable block dominates itself. -/
def dominates (t : DomTree) (a b : Int) : Bool := ((t.region? a).getD []).contains b

/-- The immediate dominator. -/
def idom? (t : DomTree) (id : Int) : Option Int :=
  (t.parents.find? (·.1.number == id)).map (·.2)

/-- The blocks immediately dominated. -/
def children (t : DomTree) (id : Int) : List BlockRef :=
  (t.parents.filter (·.2 == id)).map (·.1)

end DomTree

end LoopLanes
