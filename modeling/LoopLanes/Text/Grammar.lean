/-
The grammar of program text.

Choices are tried in order and kept once they match.  A rule answers what it
has read as a tree of plain parts: names, numbers as spelled, and positions
where a later check may have to point.  What the parts mean, and whether the
program makes sense, is decided by `LoopLanes.Text.Reader`.
-/
import LoopLanes.Text.Cursor
import LoopLanes.Ir.Op

namespace LoopLanes.Text

/-! ### Parts of a program as spelled -/

/-- An operand as spelled. -/
inductive Spelled
  | float (pos : Position) (chars : List Char)
  | int (pos : Position) (chars : List Char)
  | name (name : String)

/-- A hint with the spelling of its number. -/
structure SpelledHint where
  key : String
  value : Option (Position × List Char)

/-- The content of an instruction, form by form. -/
inductive Form
  | phi (target : String) (ty : Ty) (incoming : List (Spelled × String))
  | select (target : String) (condTy : Ty) (cond : Spelled) (ty : Ty) (lhs : Spelled)
      (rhs : Spelled)
  | arith (target : String) (op : ArithOp) (ty : Ty) (lhs rhs : Spelled)
  | comp (target : String) (kind : CompKind) (op : CompOp) (ty : Ty) (lhs rhs : Spelled)
  | load (target : String) (ty addrTy : Ty) (addr : Spelled)
  | gep (target : String) (ty : Ty) (addr : Spelled) (offsetTy : Ty) (offset : Spelled)
  | call (target : Option String) (ty : Ty) (callee : String) (args : List (Ty × Spelled))
  | store (valueTy : Ty) (value : Spelled) (addrTy : Ty) (addr : Spelled)
  | branch (ty : Ty) (cond : Spelled) (ifTrue ifFalse : String)
      (hints : Option (List SpelledHint))
  | jump (target : String) (hints : Option (List SpelledHint))
  | ret (value : Option (Ty × Spelled))

/-- An instruction and where it starts. -/
structure Line where
  pos : Position
  form : Form

/-- A block: its label and its lines. -/
structure Section where
  label : String
  lines : List Line

/-- A function. -/
structure Definition where
  retTy : Ty
  name : String
  params : List (Ty × String)
  sections : List Section

/-! ### Tokens -/

/-- ASCII letters. -/
def isLetter (c : Char) : Bool := ('a' ≤ c && c ≤ 'z') || ('A' ≤ c && c ≤ 'Z')

/-- ASCII digits. -/
def isDigit (c : Char) : Bool := '0' ≤ c && c ≤ '9'

/-- Characters of names. -/
def isNameChar (c : Char) : Bool := isLetter c || isDigit c || c = '.' || c = '_'

/-- A name. -/
def name : Rule String := return String.ofList (← chars1 isNameChar)

/-- A name behind `%`. -/
def localName : Rule String := do word "%"; name

/-- A name behind `@`. -/
def globalName : Rule String := do word "@"; name

/-- An optional minus sign. -/
def minus : Rule (List Char) := return (← option (charIf (· = '-'))).toList

/-- The exponent of a decimal. -/
def exponent : Rule (List Char) := do
  let e ← charIf fun c => c = 'e' || c = 'E'
  let sign ← option (charIf fun c => c = '+' || c = '-')
  let digits ← chars1 isDigit
  return e :: sign.toList ++ digits

/-- A decimal with a point. -/
def decimal : Rule (List Char) := do
  let sign ← minus
  let whole ← chars1 isDigit
  word "."
  let fraction ← chars1 isDigit
  let tail ← option exponent
  return sign ++ whole ++ '.' :: fraction ++ tail.getD []

/-- An integer. -/
def integer : Rule (List Char) := do
  let sign ← minus
  let digits ← chars1 isDigit
  return sign ++ digits

/-- A type. -/
def type : Rule Ty := do
  let base ← oneOf [("i32", Ty.i32), ("f32", Ty.f32), ("void", Ty.void)]
  if base = .void then return base
  match ← option (word "*") with
  | some _ => return base.toPtr
  | none => return base

/-- An operand. -/
def spelled : Rule Spelled := do
  let pos ← here
  (return .float pos (← decimal))
    <|> (return .int pos (← integer))
    <|> (return .name (← localName))

/-! ### Instructions -/

/-- The name an instruction defines, and the sign behind it. -/
def assigned : Rule String := do
  let target ← localName
  skip; word "="; skip
  return target

/-- A comma between parts. -/
def comma : Rule Unit := do skip; word ","; skip

/-- One entry of a phi. -/
def phiEntry : Rule (Spelled × String) := do
  word "["; skip
  let value ← spelled
  comma
  let label ← localName
  skip; word "]"
  return (value, label)

/-- A phi. -/
def phi : Rule Form := do
  let target ← assigned
  word "phi"; skip
  let ty ← type
  skip
  return .phi target ty (← commaSeparated phiEntry)

/-- An operand behind its type. -/
def typed : Rule (Ty × Spelled) := do
  let ty ← type
  skip
  return (ty, ← spelled)

/-- A choice between two values. -/
def select : Rule Form := do
  let target ← assigned
  word "select"; skip
  let (condTy, cond) ← typed
  comma
  let (ty, lhs) ← typed
  comma
  let (_, rhs) ← typed
  return .select target condTy cond ty lhs rhs

/-- The type and the two operands of an operator. -/
def operands : Rule (Ty × Spelled × Spelled) := do
  let (ty, lhs) ← typed
  comma
  return (ty, lhs, ← spelled)

/-- Arithmetic. -/
def arith : Rule Form := do
  let target ← assigned
  let op ← oneOf (ArithOp.all.map fun op => (op.text, op))
  skip
  let (ty, lhs, rhs) ← operands
  return .arith target op ty lhs rhs

/-- A comparison. -/
def comp : Rule Form := do
  let target ← assigned
  let kind ← oneOf [("icmp", CompKind.icmp), ("fcmp", CompKind.fcmp)]
  skip
  let op ← oneOf (CompOp.all.map fun op => (op.text, op))
  skip
  let (ty, lhs, rhs) ← operands
  return .comp target kind op ty lhs rhs

/-- A load. -/
def load : Rule Form := do
  let target ← assigned
  word "load"; skip
  let ty ← type
  comma
  let (addrTy, addr) ← typed
  return .load target ty addrTy addr

/-- An element address.  The element type is read and then ignored: the type
of the base says it all. -/
def gep : Rule Form := do
  let target ← assigned
  word "getelementptr"; skip
  let _ ← type
  comma
  let (ty, addr) ← typed
  comma
  let (offsetTy, offset) ← typed
  return .gep target ty addr offsetTy offset

/-- Arguments or parameters between parentheses. -/
def parenthesized (r : Rule α) : Rule (List α) := do
  word "("; skip
  let xs ← option (commaSeparated r)
  skip; word ")"
  return xs.getD []

/-- A call, with or without a name for its result. -/
def call : Rule Form := do
  let target ← option assigned
  word "call"; skip
  let ty ← type
  skip
  let callee ← globalName
  skip
  return .call target ty callee (← parenthesized typed)

/-- A store. -/
def store : Rule Form := do
  word "store"; skip
  let (valueTy, value) ← typed
  comma
  let (addrTy, addr) ← typed
  return .store valueTy value addrTy addr

/-- A hint. -/
def hint : Rule SpelledHint := do
  let first ← charIf isLetter
  let rest ← charsWhile isNameChar
  let value ← option do
    skip; word "="; skip
    let pos ← here
    return (pos, ← integer)
  return ⟨String.ofList (first :: rest), value⟩

/-- The hints of a loop, behind a terminator. -/
def loopHints : Rule (List SpelledHint) := do
  word ","; skip; word "!loop"; skip; word "\x7b"; skip
  let hints ← option (commaSeparated hint)
  skip; word "\x7d"
  return hints.getD []

/-- A jump target. -/
def jumpTarget : Rule String := do word "label"; skip; localName

/-- A conditional branch. -/
def branch : Rule Form := do
  word "br"; skip
  let (ty, cond) ← typed
  comma
  let ifTrue ← jumpTarget
  comma
  let ifFalse ← jumpTarget
  return .branch ty cond ifTrue ifFalse (← option do skip; loopHints)

/-- A jump. -/
def jump : Rule Form := do
  word "br"; skip
  let target ← jumpTarget
  return .jump target (← option do skip; loopHints)

/-- A return. -/
def ret : Rule Form := do
  word "ret"; skip
  (do word "void"; return .ret none) <|> (return .ret (some (← typed)))

/-- An instruction of any form. -/
def line : Rule Line := do
  let pos ← here
  let form ← phi <|> select <|> arith <|> comp <|> load <|> gep <|> call <|> store
    <|> branch <|> jump <|> ret
  return ⟨pos, form⟩

/-! ### Blocks, functions, programs -/

/-- A block. -/
def block : Rule Section := do
  let label ← name
  word ":"; skip
  return ⟨label, ← star line⟩

/-- A function parameter. -/
def param : Rule (Ty × String) := do
  let ty ← type
  skip
  return (ty, ← localName)

/-- A function. -/
def definition : Rule Definition := do
  word "define"; skip
  let retTy ← type
  skip
  let fn ← globalName
  skip
  let params ← parenthesized param
  skip; word "\x7b"; skip
  let first ← block
  skip
  let others ← star block
  skip; word "\x7d"
  return ⟨retTy, fn, params, first :: others⟩

/-- A whole program, up to the end of the text. -/
def program : Rule (List Definition) := do
  skip
  let defs ← star definition
  skip
  if (← get).rest.isEmpty then return defs else failure

/-- The definitions a text spells, if the text is in the grammar. -/
def definitions? (s : String) : Option (List Definition) :=
  (program (Cursor.ofString s)).map (·.1)

end LoopLanes.Text
