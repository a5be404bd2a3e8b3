/-
Block labels.

A block is known by its number; its label is `entry` for block 0 and `B<n>`
for block `n`.  `Label.blockId?` reads a label back and accepts every spelling
of the number, so `B007` names block 7 although block 7 is written `B7`.
-/
import LoopLanes.Text.Integer

namespace LoopLanes

/-- The name of a jump target or of the origin of an incoming value. -/
structure Label where
  name : String
  deriving DecidableEq, Hashable, Inhabited, Repr

/-- The label a block of this number carries. -/
def Label.ofBlock (id : Int) : Label :=
  if id = 0 then ⟨"entry"⟩ else ⟨s!"B{id}"⟩

/-- The number of the block a label stands for. -/
def Label.blockId? (l : Label) : Option Int :=
  if l.name = "entry" then some 0
  else
    match l.name.toList with
    | 'B' :: ds => (readInteger i32Min i32Max ds).toOption
    | _ => none

end LoopLanes
