import LoopLanes.Lanes.Run
import LoopLanes.Main
import LoopLanes.Proofs.Basic.Success
import LoopLanes.Proofs.Basic.Tables
import LoopLanes.Proofs.Basic.Words
import LoopLanes.Proofs.Cfg.Dominators
import LoopLanes.Proofs.Cfg.Edits
import LoopLanes.Proofs.Cfg.Flow
import LoopLanes.Proofs.Cfg.Links
import LoopLanes.Proofs.Cfg.Names
import LoopLanes.Proofs.Cfg.Paths
import LoopLanes.Proofs.Cfg.Uses
import LoopLanes.Proofs.Cfg.WellFormed
import LoopLanes.Proofs.Lanes.Endings
import LoopLanes.Proofs.Lanes.Rounds
import LoopLanes.Proofs.Lanes.Scalar
import LoopLanes.Proofs.Lanes.Singles
import LoopLanes.Proofs.Lanes.Soundness
import LoopLanes.Proofs.Loop.Counted
import LoopLanes.Proofs.Loop.Discovery
import LoopLanes.Proofs.Loop.Parts
import LoopLanes.Proofs.Recurrence.Counter
import LoopLanes.Proofs.Recurrence.Graph
import LoopLanes.Proofs.Recurrence.Step
import LoopLanes.Proofs.Shape.Conform
import LoopLanes.Proofs.Shape.Fixpoint
import LoopLanes.Proofs.Split.Commit
import LoopLanes.Proofs.Split.Copies
import LoopLanes.Proofs.Split.Counting
import LoopLanes.Proofs.Split.Iterations
import LoopLanes.Proofs.Split.Staging
import LoopLanes.Proofs.Text.Decimal
import LoopLanes.Proofs.Text.Parsed
import LoopLanes.Proofs.Vectorize.Calls
import LoopLanes.Proofs.Vectorize.Escapes
import LoopLanes.Proofs.Vectorize.Resets
import LoopLanes.Proofs.Widen.Blocks
import LoopLanes.Proofs.Widen.Represent
import LoopLanes.Proofs.Widen.Rounds
import LoopLanes.Proofs.Widen.Steps
import LoopLanes.Proofs.Widen.Order
import LoopLanes.Proofs.Loop.Body
import LoopLanes.Proofs.Widen.Masks
import LoopLanes.Proofs.Widen.Selections
import LoopLanes.Proofs.Widen.Lines
import LoopLanes.Proofs.Widen.Linearized
import LoopLanes.Proofs.Cfg.Jumps
import LoopLanes.Proofs.Cfg.Recasts
import LoopLanes.Proofs.Split.Updates
import LoopLanes.Proofs.Split.Detour
import LoopLanes.Proofs.Split.Formed
import LoopLanes.Proofs.Split.Verified
import LoopLanes.Proofs.Lanes.Turns
import LoopLanes.Proofs.Vectorize.Visits
import LoopLanes.Proofs.Recurrence.Contribution
import LoopLanes.Proofs.Recurrence.Gains
import LoopLanes.Proofs.Vectorize.Reruns
import LoopLanes.Proofs.Text.Constants
import LoopLanes.Proofs.Text.Reparse
import LoopLanes.Proofs.Cfg.Tree
import LoopLanes.Proofs.Cfg.NaturalLoops
import LoopLanes.Proofs.Loop.Natural
import LoopLanes.Proofs.Loop.Nesting
import LoopLanes.Proofs.Loop.CutOff
import LoopLanes.Proofs.Split.CutOff
import LoopLanes.Proofs.Widen.CutOff
import LoopLanes.Proofs.Vectorize.Unreached
import LoopLanes.Proofs.Vectorize.Verified
import LoopLanes.Proofs.Widen.Partials
import LoopLanes.Proofs.Split.InPlace
import LoopLanes.Proofs.Vectorize.Speculation
import LoopLanes.Proofs.Recurrence.Components
import LoopLanes.Proofs.Loop.TripCounts
import LoopLanes.Proofs.Recurrence.Strides
import LoopLanes.Proofs.Recurrence.Enumerations
import LoopLanes.Proofs.Text.Naming
import LoopLanes.Proofs.Lanes.Typing
import LoopLanes.Proofs.Lanes.Renaming
import LoopLanes.Proofs.Split.Bisimilar
import LoopLanes.Proofs.Loop.Lengths
import LoopLanes.Proofs.Split.Shares
import LoopLanes.Proofs.Vectorize.Widths
import LoopLanes.Proofs.Lanes.Limits
import LoopLanes.Proofs.Loop.Search
import LoopLanes.Proofs.Loop.Tree
import LoopLanes.Proofs.Loop.Innermost
import LoopLanes.Proofs.Widen.Sorting
import LoopLanes.Proofs.Vectorize.Latches
import LoopLanes.Proofs.Shape.Settling
import LoopLanes.Proofs.Shape.Results
import LoopLanes.Proofs.Cfg.Retargeting
import LoopLanes.Proofs.Recurrence.Agreement
import LoopLanes.Proofs.Vectorize.Accepted
