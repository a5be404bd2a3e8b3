/-
Basic blocks, functions and programs.

A block has a number, and its label is read off the number.  It lists its
predecessors and successors beside the terminator, as links of their own: edits
may move the one before the other, and `Func.verify` says whether they agree.

A text may give one number to several blocks.  Such a function is flawed, but it
can still be shown, linked and analysed; so a link names one block of a number,
while analyses speak of numbers.
-/
import LoopLanes.Ir.Instr
import LoopLanes.Ir.Hints

namespace LoopLanes

/-- What a link to a block holds. -/
structure BlockRef where
  number : Int
  /-- tells blocks of one number apart: how many of them stand behind this one
  in the text -/
  copy : Nat
  deriving DecidableEq, Inhabited, Repr

/-- A block: phis, instructions and a terminator, with its links. -/
structure Block where
  ref : BlockRef
  prev : List BlockRef
  succ : List BlockRef
  phis : List Phi
  instrs : List Instr
  jump : Option Instr
  /-- hints of the loop that the terminator closes -/
  hints : Option Hints
  deriving DecidableEq, Inhabited

/-- A function; its first block is where it is entered. -/
structure Func where
  /-- the largest block number in use, from which new blocks count on -/
  total : Int
  blocks : List Block
  name : String
  retTy : Ty
  params : List Temp
  deriving DecidableEq, Inhabited

/-- Functions, with the counter for fresh temporaries they share. -/
structure Program where
  funcs : List Func
  temps : TempCounter
  deriving DecidableEq, Inhabited

namespace BlockRef

/-- The last block of a number, or the only one. -/
def last (number : Int) : BlockRef := ⟨number, 0⟩

/-- The label of the block. -/
def label (r : BlockRef) : Label := Label.ofBlock r.number

/-- Of several links to one number, only the first. -/
def distinct (rs : List BlockRef) : List BlockRef := rs.eraseDupsBy fun a b => a.number == b.number

end BlockRef

namespace Block

/-- The number of a block. -/
def id (b : Block) : Int := b.ref.number

/-- A block without content. -/
def ofId (id : Int) : Block := ⟨.last id, [], [], [], [], none, none⟩

/-- The label of a block. -/
def label (b : Block) : Label := b.ref.label

/-- The targets of the terminator. -/
def targets (b : Block) : List Label := (b.jump.map Instr.targets).getD []

/-- Number of phis and instructions; the terminator does not count. -/
def size (b : Block) : Nat := b.phis.length + b.instrs.length

/-- The temporaries a block defines. -/
def writes (b : Block) : List Temp :=
  b.phis.map (·.target) ++ b.instrs.filterMap Instr.write

/-- Renames the targets of the terminator. -/
def renameTargets (ρ : Label → Label) (b : Block) : Block :=
  { b with jump := b.jump.map (·.renameLabels ρ) }

/-- Renames the labels that phis take values from. -/
def renameIncoming (ρ : Label → Label) (b : Block) : Block :=
  { b with phis := b.phis.map (·.renameLabels ρ) }

/-- Replaces the terminator by a jump to the first linked successor. -/
def jumpToSucc (b : Block) : Block :=
  match b.succ with
  | [] => b
  | s :: _ => { b with jump := some (.jump s.label) }

/-- A block as written in program text. -/
def text (b : Block) : String :=
  let line (s : String) := "  " ++ s
  let jump := b.jump.toList.map fun j =>
    match b.hints with
    | some h => line (j.text ++ ", " ++ h.text)
    | none => line j.text
  let lines := b.phis.map (line ·.text) ++ b.instrs.map (line ·.text) ++ jump
  b.label.name ++ ":\n" ++ "\n".intercalate lines

end Block

namespace Func

/-- The entry block; a function without blocks has an empty one. -/
def entry (f : Func) : Block := f.blocks.headD (Block.ofId 0)

/-- The first block of a number. -/
def block? (f : Func) (id : Int) : Option Block := f.blocks.find? (·.id == id)

/-- The first block of a label. -/
def labelled? (f : Func) (l : Label) : Option Block := f.blocks.find? (·.label == l)

/-- The block that a link leads to. -/
def linked? (f : Func) (r : BlockRef) : Option Block := f.blocks.find? (·.ref == r)

/-- A link to the first block of a number; it leads nowhere if there is none. -/
def firstRef (f : Func) (id : Int) : BlockRef := ((f.block? id).map (·.ref)).getD (.last id)

/-- Place of the first block of a number. -/
def position? (f : Func) (id : Int) : Option Nat := f.blocks.findIdx? (·.id == id)

/-- Number of phis and instructions. -/
def size (f : Func) : Nat := f.blocks.foldr (fun b n => b.size + n) 0

/-- Changes a block. -/
def modify (f : Func) (r : BlockRef) (g : Block → Block) : Func :=
  { f with blocks := f.blocks.map fun b => if b.ref == r then g b else b }

/-- Changes every phi, instruction and terminator. -/
def mapCode (onPhi : Phi → Phi) (onInstr : Instr → Instr) (f : Func) : Func :=
  { f with blocks := f.blocks.map fun b =>
      { b with
        phis := b.phis.map onPhi, instrs := b.instrs.map onInstr, jump := b.jump.map onInstr } }

/-- A number for a new block, and the function that knows it is taken. -/
def newBlockId (f : Func) : Int × Func := (f.total + 1, { f with total := f.total + 1 })

/-- The first line of a function. -/
def head (f : Func) : String :=
  let params := ", ".intercalate (f.params.map fun p => s!"{p.ty.text} {p.text}")
  s!"define {f.retTy.text} @{f.name}({params})"

/-- A function as written in program text. -/
def text (f : Func) : String :=
  f.head ++ " \x7b\n" ++ "\n".intercalate (f.blocks.map Block.text) ++ "\n\x7d"

end Func

namespace Program

/-- A program without functions. -/
def empty : Program := ⟨[], 0⟩

/-- The first function of a name. -/
def func? (p : Program) (name : String) : Option Func := p.funcs.find? (·.name == name)

/-- A program as written. -/
def text (p : Program) : String :=
  "\n\n".intercalate (p.funcs.map Func.text) ++ "\n"

end Program

end LoopLanes
