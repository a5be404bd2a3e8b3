/-
Copies of a set of blocks under fresh names.

Labels of the blocks and temporaries defined in them are renamed; everything
else is read as it is.  Temporaries get their new names in sort order.
-/
import LoopLanes.Loop.Forest

namespace LoopLanes

/-- The renamings of a copy. -/
structure LoopClone where
  /-- new numbers of blocks, those given last in front -/
  blockMap : List (Int × Int)
  /-- renamed labels, those named last in front -/
  labelMap : List (Label × Label)
  tempMap : List (Temp × Temp)

namespace LoopClone

/-- Fresh temporaries for a list of them, of the same types. -/
def freshTemps : List Temp → TempCounter → List (Temp × Temp) × TempCounter
  | [], n => ([], n)
  | t :: ts, n =>
    let (new, n) := TempCounter.fresh n t.ty false
    let (rest, n) := freshTemps ts n
    ((t, new) :: rest, n)

/-- Names for the copies of some blocks; new blocks are numbered after
`last`. -/
def ofBlocks (bs : List Block) (last : Int) (temps : TempCounter) :
    LoopClone × TempCounter :=
  let blockMap := (bs.zipIdx.map fun (b, i) => (b.id, last + 1 + (i : Int))).reverse
  let labelMap := blockMap.map fun (old, new) => (Label.ofBlock old, Label.ofBlock new)
  let (tempMap, temps) := freshTemps (Temp.sorted (writesOf bs)) temps
  (⟨blockMap, labelMap, tempMap⟩, temps)

/-- Redirects edges that leave the set, or phi entries from outside it. -/
def mapOutside (c : LoopClone) (old new : Label) : LoopClone :=
  { c with labelMap := (old, new) :: c.labelMap }

/-- The copy of a block. -/
def block? (c : LoopClone) (id : Int) : Option Int := c.blockMap.lookup id

/-- The new name of a temporary. -/
def temp (c : LoopClone) (t : Temp) : Temp := (c.tempMap.lookup t).getD t

/-- The new name of a label. -/
def label (c : LoopClone) (l : Label) : Label := (c.labelMap.lookup l).getD l

/-- The copy of a block with its content, not linked yet. -/
def copy (c : LoopClone) (b : Block) : Block :=
  { Block.ofId ((c.block? b.id).getD b.id) with
    phis := b.phis.map fun p => (p.rename c.temp).renameLabels c.label
    instrs := b.instrs.map (·.rename c.temp)
    jump := b.jump.map fun j => (j.rename c.temp).renameLabels c.label
    hints := b.hints }

/-- The copies of some blocks, in order.  Of several blocks of one number only the
last has a copy, and its copy stands for all of them. -/
def copies (c : LoopClone) (bs : List Block) : List Block :=
  bs.map fun b => c.copy ((bs.reverse.find? (·.id == b.id)).getD b)

end LoopClone

end LoopLanes
