/-
What the hints of a loop say about vectorizing it.

The hints of all latches are taken together, later ones over earlier ones.
-/
import LoopLanes.Loop.Forest

namespace LoopLanes

/-! ### Keys of the hints that concern vectorizing -/

namespace HintKey

/-- Asks for vectorizing, or forbids it. -/
def enable : String := "llvm.loop.vectorize.enable"
/-- Fixes the number of lanes. -/
def width : String := "llvm.loop.vectorize.width"
/-- Marks loops that have been vectorized. -/
def isVectorized : String := "llvm.loop.isvectorized"
/-- Promises that no iteration depends on another. -/
def parallelAccesses : String := "llvm.loop.parallel_accesses"
/-- The smallest number of iterations between dependent ones. -/
def minDepDist : String := "rv.loop.mindepdist"
/-- The start of every hint that is dropped from a vectorized loop. -/
def vectorizeStart : String := "llvm.loop.vectorize."

end HintKey

/-- The dependence distance of a loop whose iterations do not depend on one
another. -/
def unboundedDistance : Nat := u32Max.toNat

/-- A dependence distance as shown. -/
def distanceText (d : Nat) : String :=
  if d = unboundedDistance then "unbounded" else toString d

/-- The hints that concern vectorizing, decoded. -/
structure LoopNote where
  enable : Option Bool
  vectorized : Option Bool
  width : Option Nat
  minDepDist : Option Nat
  deriving DecidableEq, Repr

namespace LoopNote

/-- Says nothing. -/
def empty : LoopNote := ⟨none, none, none, none⟩

/-- A hint as a truth value. -/
def getBool? (h : Hints) (key : String) : Option Bool := (h.getInt? key).map (· ≠ 0)

/-- A hint as an unsigned word; other numbers count as absent. -/
def getWord? (h : Hints) (key : String) : Option Nat :=
  (h.getInt? key).bind fun n => if 0 ≤ n ∧ n ≤ u32Max then some n.toNat else none

/-- Decodes hints. -/
def ofHints (h : Hints) : LoopNote :=
  ⟨getBool? h HintKey.enable, getBool? h HintKey.isVectorized, getWord? h HintKey.width,
    getWord? h HintKey.minDepDist⟩

/-- Sets a hint if there is a value for it. -/
def setIfSome (h : Hints) (key : String) (value : Option Int) : Hints :=
  if value.isSome then h.set key value else h

/-- Stores what is said; other hints stay. -/
def writeTo (n : LoopNote) (h : Hints) : Hints :=
  let bit (b : Bool) : Int := if b then 1 else 0
  let h := setIfSome h HintKey.enable (n.enable.map bit)
  let h := setIfSome h HintKey.isVectorized (n.vectorized.map bit)
  let h := setIfSome h HintKey.width (n.width.map Int.ofNat)
  setIfSome h HintKey.minDepDist (n.minDepDist.map Int.ofNat)

/-- The dependence distance; unbounded where nothing is said. -/
def depDist (n : LoopNote) : Nat := n.minDepDist.getD unboundedDistance

/-- What is said, in one line. -/
def text (n : LoopNote) : String :=
  let shown (s : Option String) := s.getD "n/a"
  let bit (b : Option Bool) := shown (b.map fun b => if b then "true" else "false")
  s!"loopMD \x7bvectorize: {bit n.enable}, vectorized: {bit n.vectorized}, " ++
    s!"width: {shown (n.width.map toString)}, " ++
    s!"depDist: {shown (n.minDepDist.map distanceText)}\x7d"

end LoopNote

namespace Loop

variable (f : Func) (t : LoopForest) (l : Loop)

/-- The hints of all latches together. -/
def hints : Hints :=
  ((l.latches f t).filterMap f.linked?).foldl
    (fun h b => ((b.hints.map (·.entries)).getD []).foldl (fun h e => h.set e.1 e.2) h)
    Hints.empty

/-- The decoded hints of all latches. -/
def note : LoopNote := .ofHints (l.hints f t)

/-- Whether the iterations are promised to be independent. -/
def isParallel : Bool := (l.hints f t).has HintKey.parallelAccesses

/-- Stores a note in the hints of every latch. -/
def annotate (n : LoopNote) : Func :=
  (l.latches f t).foldl
    (fun f r => f.modify r fun b => { b with hints := some (n.writeTo (b.hints.getD .empty)) }) f

/-- Drops what asked for vectorizing from hints; none are left where nothing
else is said. -/
def clearedHints (h : Option Hints) : Option Hints :=
  let h := h.map fun h =>
    ((h.removeStarting HintKey.vectorizeStart).remove HintKey.parallelAccesses).remove
      HintKey.minDepDist
  h.filter fun h => !h.isEmpty

/-- Drops what asked for vectorizing from the hints of every latch. -/
def clearAnnotations : Func :=
  (l.latches f t).foldl
    (fun f r => f.modify r fun b => { b with hints := clearedHints b.hints }) f

end Loop

end LoopLanes
