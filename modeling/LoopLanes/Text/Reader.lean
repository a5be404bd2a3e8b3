/-
From program text to programs.

The text must be in the grammar as a whole before anything else is looked at.
Then every number, type and terminator is checked in the order of the text, and
at last the blocks of each function are linked.  All functions share one
counter for fresh temporaries, raised past every numeric name as it is read.
-/
import LoopLanes.Text.Grammar
import LoopLanes.Cfg.Edit

namespace LoopLanes

open Text

/-- Why a text is no program. -/
inductive SourceError
  /-- the text is not in the grammar -/
  | grammar
  | integer (pos : Position) (cause : IntegerError)
  | afterTerminator (pos : Position)
  | illTyped (pos : Position) (instr : Instr)
  | badLabel (func : String) (label : String)
  | unknownBlock (func : String) (label : Label)
  deriving DecidableEq

namespace SourceError

/-- A message behind the position it is about. -/
def located (p : Position) (msg : String) : String := s!"{p.line}:{p.col}: {msg}"

/-- The wording of each cause; a text outside the grammar has none. -/
def message : SourceError → String
  | grammar => ""
  | integer p cause => located p cause.message
  | afterTerminator p => located p "instruction after terminator"
  | illTyped p i => located p s!"ill-typed instruction \x60{i.text}\x60"
  | badLabel f l => s!"block \x60{l}\x60 in @{f}: labels are \x60entry\x60 or \x60B<n>\x60"
  | unknownBlock f l => s!"@{f}: unknown block \x60{l.name}\x60"

end SourceError

/-- Reading with the counter for fresh temporaries at hand; names stay reserved
where reading fails. -/
abbrev Reading := ExceptT SourceError (StateM TempCounter)

namespace Reading

/-- A temporary of the text; its name is reserved. -/
def temp (name : String) (ty : Ty) : Reading Temp := do
  modify (·.reserve name)
  return .ofLocal name ty

/-- The single that a decimal spells. -/
def single (chars : List Char) : Float32 :=
  let (negative, chars) :=
    match chars with
    | '-' :: cs => (true, cs)
    | cs => (false, cs)
  let whole := chars.takeWhile isDigit
  let tail := chars.dropWhile isDigit
  let (fraction, tail) :=
    match tail with
    | '.' :: cs => (cs.takeWhile isDigit, cs.dropWhile isDigit)
    | cs => ([], cs)
  let scale : Int :=
    match tail with
    | _ :: '-' :: ds => -(digitsValue ds : Int)
    | _ :: '+' :: ds => digitsValue ds
    | _ :: ds => digitsValue ds
    | [] => 0
  Binary32.ofDecimal negative (digitsValue (whole ++ fraction)) (scale - fraction.length)

/-- The operand spelled where a value of the given type is wanted.  Integers
spell singles where a single is wanted. -/
def value (ty : Ty) : Spelled → Reading Value
  | .float _ chars => return .float (single chars)
  | .int pos chars =>
    if ty = .f32 then return .float (single chars)
    else
      match readInteger i32Min i32Max chars with
      | .ok n => return .ofInt n
      | .error e => throw (.integer pos e)
  | .name n => return .temp (← temp n ty)

/-- The hints spelled; of a repeated key the last value counts. -/
def hints (spelled : List SpelledHint) : Reading Hints :=
  spelled.foldlM (fun (h : Hints) s =>
    match s.value with
    | none => return h.set s.key none
    | some (pos, chars) =>
      match readInteger i64Min i64Max chars with
      | .ok n => return h.set s.key (some n)
      | .error e => throw (.integer pos e)) Hints.empty

/-- A phi. -/
def phi (target : String) (ty : Ty) (incoming : List (Spelled × String)) : Reading Phi := do
  let t ← temp target ty
  let entries ← incoming.mapM fun (v, l) => return (← value ty v, (⟨l⟩ : Label))
  return .ofTarget t entries

/-- A form that is neither a phi nor a terminator. -/
def plain? : Form → Option (Reading Instr)
  | .arith target op ty lhs rhs => some do
    let t ← temp target ty
    return .arith t op ty (← value ty lhs) (← value ty rhs)
  | .comp target kind op ty lhs rhs => some do
    let t ← temp target .i32
    return .comp t kind op ty (← value ty lhs) (← value ty rhs)
  | .select target condTy cond ty lhs rhs => some do
    let c ← value condTy cond
    let a ← value ty lhs
    let b ← value ty rhs
    return .select (← temp target ty) ty c a b
  | .load target ty addrTy addr => some do
    let t ← temp target ty
    return .load t ty (← value addrTy addr)
  | .gep target ty addr offsetTy offset => some do
    let a ← value ty addr
    let t ← temp target ty
    return .gep t ty a (← value offsetTy offset)
  | .call target ty callee args => some do
    let args ← args.mapM fun (t, v) => return (t, ← value t v)
    match target with
    | some n => return .call (← temp n ty) ty callee args
    | none =>
      let t ← modifyGet fun n => TempCounter.fresh n ty false
      return .call t ty callee args
  | .store valueTy v addrTy addr => some do
    let v ← value valueTy v
    return .store v (← value addrTy addr)
  | _ => none

/-- A terminator with the hints behind it. -/
def terminator? : Form → Option (Reading (Instr × Option Hints))
  | .branch ty cond l m hs => some do
    let c ← value ty cond
    return (.branch ty c ⟨l⟩ ⟨m⟩, ← hs.mapM hints)
  | .jump l hs => some do return (.jump ⟨l⟩, ← hs.mapM hints)
  | .ret none => some (return (.ret none, none))
  | .ret (some (ty, v)) => some do return (.ret (some (← value ty v)), none)
  | _ => none

/-- Adds a line to a block. -/
def addLine (b : Block) (l : Line) : Reading Block := do
  if b.jump.isSome then throw (.afterTerminator l.pos)
  match l.form with
  | .phi target ty incoming =>
    let p ← phi target ty incoming
    return { b with phis := b.phis ++ [p] }
  | form =>
    match terminator? form, plain? form with
    | some read, _ =>
      let (jump, hints) ← read
      return { b with jump := some jump, hints := hints }
    | none, some read =>
      let i ← read
      if i.wellTyped then return { b with instrs := b.instrs ++ [i] }
      else throw (.illTyped l.pos i)
    | none, none => return b

/-- The content of a block; its number is settled later. -/
def block (s : Section) : Reading (String × Block) := do
  return (s.label, ← s.lines.foldlM addLine (Block.ofId 0))

/-- A function before its blocks are numbered. -/
structure Draft where
  retTy : Ty
  name : String
  params : List Temp
  blocks : List (String × Block)

/-- The content of a function. -/
def draft (d : Definition) : Reading Draft := do
  let params ← d.params.mapM fun (ty, n) => temp n ty
  let blocks ← d.sections.mapM block
  return ⟨d.retTy, d.name, params, blocks⟩

end Reading

/-- Numbers blocks, the copies of each number counted from the end. -/
def Block.numbered : List (Int × Block) → List Block
  | [] => []
  | (id, b) :: rest => { b with ref := ⟨id, (rest.map (·.1)).count id⟩ } :: numbered rest

/-- Numbers the blocks of a function and links them. -/
def Func.ofDraft (d : Reading.Draft) : Except SourceError Func := do
  let blocks ← d.blocks.mapM fun (l, b) =>
    match Label.blockId? ⟨l⟩ with
    | some id => .ok (id, b)
    | none => .error (.badLabel d.name l)
  let blocks := Block.numbered blocks
  let total := blocks.foldl (fun n b => max n b.id) 0
  match Func.resolveLinks ⟨total, blocks, d.name, d.retTy, d.params⟩ with
  | (f, none) => .ok f
  | (_, some l) => .error (.unknownBlock d.name l)

/-- Reads definitions one after the other, starting from a counter. -/
def Program.ofDefinitions (defs : List Definition) (temps : TempCounter) :
    Except SourceError Program := do
  let (drafts, temps) := (defs.mapM Reading.draft).run.run temps
  return ⟨← (← drafts).mapM Func.ofDraft, temps⟩

/-- Reads a program, starting from a counter. -/
def Program.parseFrom (temps : TempCounter) (s : String) : Except SourceError Program :=
  match definitions? s with
  | none => .error .grammar
  | some defs => Program.ofDefinitions defs temps

/-- Reads a program. -/
def Program.parse (s : String) : Except SourceError Program := Program.parseFrom 0 s

/-- A function with a single line in its only block. -/
def Text.scratch (line : String) : String :=
  "define void @x() \x7b\nentry:\n" ++ line ++ "\n\x7d"

/-- Reads an instruction, phi or terminator that stands alone, starting from a
counter; positions in errors are those within `scratch`. -/
def Instr.parseFrom (temps : TempCounter) (s : String) :
    Except SourceError Instr × TempCounter :=
  match definitions? (scratch s) with
  | none => (.error .grammar, temps)
  | some defs =>
    let (drafts, temps) := (defs.mapM Reading.draft).run.run temps
    let first (d : Reading.Draft) : List Instr :=
      d.blocks.flatMap fun (_, b) => b.phis.map Instr.phi ++ b.instrs ++ b.jump.toList
    match drafts with
    | .error e => (.error e, temps)
    | .ok ds =>
      match ds.flatMap first with
      | i :: _ => (.ok i, temps)
      | [] => (.error .grammar, temps)

end LoopLanes
