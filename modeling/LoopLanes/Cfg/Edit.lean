/-
Links between blocks, and edits that keep or move them.

`resolveLinks` rebuilds all links from the terminators.  The other operations
change one edge or one block at a time and leave the rest as it is.
-/
import LoopLanes.Cfg.Block

namespace LoopLanes

namespace Block

/-- Adds a successor. -/
def addSucc (r : BlockRef) (b : Block) : Block := { b with succ := b.succ ++ [r] }

/-- Adds a predecessor. -/
def addPrev (r : BlockRef) (b : Block) : Block := { b with prev := b.prev ++ [r] }

/-- Drops every edge to blocks of a number. -/
def dropSucc (id : Int) (b : Block) : Block :=
  { b with succ := b.succ.filter (·.number != id) }

/-- Drops every edge from blocks of a number. -/
def dropPrev (id : Int) (b : Block) : Block :=
  { b with prev := b.prev.filter (·.number != id) }

/-- Forgets all links. -/
def clearLinks (b : Block) : Block := { b with prev := [], succ := [] }

end Block

namespace Func

/-- Adds an edge. -/
def link (f : Func) (source target : BlockRef) : Func :=
  (f.modify source (·.addSucc target)).modify target (·.addPrev source)

/-- Removes every edge between two blocks. -/
def unlink (f : Func) (source target : BlockRef) : Func :=
  (f.modify source (·.dropSucc target.number)).modify target (·.dropPrev source.number)

/-- The renaming of one label. -/
def renameOne (old new : Label) (l : Label) : Label := if l == old then new else l

/-- Moves the edges from `source` to `old` over to `new`, terminator included;
phis are left alone. -/
def replaceSucc (f : Func) (source old new : BlockRef) : Func :=
  let ρ := renameOne old.label new.label
  ((f.unlink source old).modify source (·.renameTargets ρ)).link source new

/-- The block a jump to a label leads to: the last one that carries it. -/
def target? (f : Func) (l : Label) : Option BlockRef :=
  (f.blocks.reverse.find? (·.label == l)).map (·.ref)

/-- Every jump target, with the block that jumps there. -/
def jumps (f : Func) : List (BlockRef × Label) :=
  f.blocks.flatMap fun b => b.targets.map fun l => (b.ref, l)

/-- Links jumps in order, up to the first target that is no block. -/
def linkJumps : List (BlockRef × Label) → Func → Func × Option Label
  | [], f => (f, none)
  | (source, l) :: rest, f =>
    match f.target? l with
    | none => (f, some l)
    | some target => linkJumps rest (f.link source target)

/-- Rebuilds the links from the terminators.  At a target that is no block it
stops and answers that label beside the links made so far. -/
def resolveLinks (f : Func) : Func × Option Label :=
  linkJumps f.jumps { f with blocks := f.blocks.map Block.clearLinks }

end Func

end LoopLanes
