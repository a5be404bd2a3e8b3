/-
The blocks handed to the cost estimate and to widening: one loop with the loops
inside it.
-/
import LoopLanes.Loop.Frequency

namespace LoopLanes

/-- A loop as a set of blocks with their frequencies. -/
structure Region where
  header : BlockRef
  blocks : List BlockRef
  /-- visits of each block per visit of the header -/
  frequency : List (Int × Float)

namespace Region

/-- The region of a loop. -/
def ofLoop (f : Func) (t : LoopForest) (l : Loop) : Region :=
  ⟨l.header, (l.blocks f t).map (·.ref), l.blockFrequency f t (BranchProb.ofFunc f t)⟩

/-- Whether blocks of a number belong to the region. -/
def contains (r : Region) (block : Int) : Bool := r.blocks.any (·.number == block)

/-- The frequency of a block; zero outside the region. -/
def frequencyOf (r : Region) (block : Int) : Float :=
  (r.frequency.lookup block).getD 0.0

/-- The blocks of the region as they are in a function. -/
def blocksIn (r : Region) (f : Func) : List Block := r.blocks.filterMap f.linked?

end Region

end LoopLanes
