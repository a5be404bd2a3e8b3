/-
Definitions and uses within a set of blocks.

Edges go from a temporary to the operands of its definition, as far as these are
defined in the same blocks.
-/
import LoopLanes.Cfg.Block

namespace LoopLanes

/-- The instructions of some blocks, phis first and terminators last in each,
with the blocks they stand in. -/
structure UseGraph where
  sites : List (Int × Instr)

namespace UseGraph

/-- The graph of some blocks. -/
def ofBlocks (bs : List Block) : UseGraph :=
  ⟨bs.flatMap fun b =>
    (b.phis.map Instr.phi ++ b.instrs ++ b.jump.toList).map fun i => (b.id, i)⟩

/-- The instruction that defines a temporary, the last of several. -/
def definition? (g : UseGraph) (t : Temp) : Option Instr :=
  (g.sites.reverse.find? fun s => s.2.write == some t).map (·.2)

/-- Whether a temporary is defined in the graph. -/
def isDefined (g : UseGraph) (t : Temp) : Bool := (g.definition? t).isSome

/-- Whether a temporary is defined by a phi. -/
def isPhi (g : UseGraph) (t : Temp) : Bool := (g.definition? t).any Instr.isPhi

/-- The operands of a definition that are defined in the graph. -/
def operands (g : UseGraph) (t : Temp) : List Temp :=
  ((g.definition? t).map Instr.readTemps |>.getD []).filter g.isDefined

/-- All operands of a definition. -/
def values (g : UseGraph) (t : Temp) : List Value :=
  ((g.definition? t).map Instr.reads).getD []

/-- Every read of a temporary; an instruction that reads it twice is there
twice. -/
def users (g : UseGraph) (t : Temp) : List (Int × Instr) :=
  g.sites.flatMap fun s => List.replicate (s.2.readTemps.count t) s

/-- The temporaries defined in the graph. -/
def temps (g : UseGraph) : List Temp := g.sites.filterMap (·.2.write)

end UseGraph

end LoopLanes
