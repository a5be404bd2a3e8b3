/-
Which loops are considered, and why the others are left alone.
-/
import LoopLanes.Loop.Annotation
import LoopLanes.Cost.Model
import LoopLanes.Split.Plan

namespace LoopLanes

/-- Why a loop was left alone.  None of these ends a run. -/
inductive SkipReason
  | notTriggered
  | alreadyVectorized
  | dependenceDistance (d : Nat)
  | noSingleExit
  | widthOne
  | widthTooLarge (w : Nat)
  | notBeneficial
  | shape (cause : UnsupportedLoop)
  | unrecognizedPhi (phi : String)
  | unsupportedReduction (reduction : String)
  | conflictingReduction (reduction : String)
  | nonAffineRecurrence (reduction : String)
  deriving DecidableEq

/-- The wording of each cause. -/
def SkipReason.message : SkipReason → String
  | notTriggered => "not explicitly triggered"
  | alreadyVectorized => "already vectorized"
  | dependenceDistance d => s!"Min dependence distance was {distanceText d}"
  | noSingleExit => "no single exiting block with a conditional branch"
  | widthOne => "vector width 1 requested"
  | widthTooLarge w => s!"vector width {w} is above the limit of {maxVectorWidth}"
  | notBeneficial => "vectorization not beneficial"
  | shape c => s!"Can not prepare vectorization of the loop: {c.message}"
  | unrecognizedPhi p => s!"unrecognized phi use in vector loop: {p}"
  | unsupportedReduction r => s!"unsupported reduction: {r}"
  | conflictingReduction r => s!"can not vectorize this non-trivial SCC: {r}"
  | nonAffineRecurrence r => s!"can not vectorize this non-affine recurrence: {r}"

/-- What is known of a loop that is considered. -/
structure GateResult where
  note : LoopNote
  depDist : Nat

namespace Loop

variable (f : Func) (t : LoopForest) (l : Loop)

/-- Whether the loop is left by one block only, over a branch that may as well
stay. -/
def hasConditionalExit : Bool :=
  match (l.singleExiting? f t).bind (·.jump) with
  | some (.branch _ _ a b) => a ≠ b
  | _ => false

/-- What the hints say, a promise of independence included. -/
def effectiveNote : LoopNote :=
  let n := l.note f t
  if l.isParallel f t then
    { n with minDepDist := some unboundedDistance, enable := some true }
  else n

/-- Decides by hints and structure alone whether a loop is considered. -/
def gate : Except SkipReason GateResult := do
  let n := l.effectiveNote f t
  -- a vectorized loop has lost its wish, so this is asked first
  if n.vectorized = some true then throw .alreadyVectorized
  if n.enable ≠ some true then throw .notTriggered
  if n.depDist ≤ 1 then throw (.dependenceDistance n.depDist)
  if !l.hasConditionalExit f t then throw .noSingleExit
  return ⟨n, n.depDist⟩

/-- A known divisor of the number of iterations: the number itself where it is a
constant above 1 that fits a word, else 1. -/
def tripAlignment : Nat :=
  match (Induction.ofLoop? f t l).bind Induction.tripCount? with
  | some n => if 1 < n ∧ n ≤ i32Max then n.toNat else 1
  | none => 1

end Loop

/-- The shape of one header phi of the loop to be widened. -/
def Recurrences.headerShape (r : Recurrences) (phi : Temp) : Except SkipReason LaneShape := do
  if let some p := r.stride? phi then return p.shape
  let some red := r.reduction? phi | throw (.unrecognizedPhi phi.text)
  if red.hasForeignUser then throw (.unsupportedReduction red.text)
  match red.kind with
  | .top => throw (.conflictingReduction red.text)
  | .bot => throw (.nonAffineRecurrence red.text)
  | k =>
    if (k.identity? red.ty).isNone then throw (.unsupportedReduction red.text)
    return red.shape

end LoopLanes
