/-
Instructions.

Scalar instructions work on one value; the vector forms give one value per
lane.  `vec` runs a scalar instruction once per lane, under a mask if it has
one; `ladder` lays out `base, base + stride, ...`; `buildVec` collects lanes
and `reduce` folds them.  One type holds them all, terminators and phis too,
because a block may be given any of them in any place; what is in its right
place is checked by `Func.verify`.

`reads` lists operands in the order in which they are read, and `write` is the
temporary an instruction defines.
-/
import LoopLanes.Ir.Label
import LoopLanes.Ir.Value
import LoopLanes.Ir.Op

namespace LoopLanes

/-- A value chosen by the edge along which its block is entered. -/
structure Phi where
  target : Temp
  ty : Ty
  incoming : List (Value × Label)
  deriving DecidableEq, Inhabited

/-- An instruction of any kind. -/
inductive Instr
  | arith (target : Temp) (op : ArithOp) (ty : Ty) (lhs rhs : Value)
  | comp (target : Temp) (kind : CompKind) (op : CompOp) (ty : Ty) (lhs rhs : Value)
  | select (target : Temp) (ty : Ty) (cond lhs rhs : Value)
  | jump (target : Label)
  | branch (ty : Ty) (cond : Value) (ifTrue ifFalse : Label)
  | phi (phi : Phi)
  | ret (value : Option Value)
  | store (value addr : Value)
  | load (target : Temp) (ty : Ty) (addr : Value)
  | gep (target : Temp) (ty : Ty) (addr offset : Value)
  | call (target : Temp) (ty : Ty) (callee : String) (args : List (Ty × Value))
  | vec (width : Nat) (mask : Option Value) (inner : Instr)
  | ladder (target : Temp) (ty : Ty) (base : Value) (stride : Int) (width : Nat)
  | buildVec (target : Temp) (ty : Ty) (lanes : List Value)
  | reduce (target : Temp) (op : ArithOp) (ty : Ty) (vector : Value) (width : Nat)
  deriving DecidableEq, Inhabited

namespace Phi

/-- A phi of its target's type. -/
def ofTarget (target : Temp) (incoming : List (Value × Label)) : Phi :=
  ⟨target, target.ty, incoming⟩

/-- The value that flows in from a label: that of its first entry. -/
def incoming? (p : Phi) (l : Label) : Option Value :=
  (p.incoming.find? (·.2 == l)).map (·.1)

/-- Replaces the first entry of a label, or appends one. -/
def setEntries (l : Label) (v : Value) : List (Value × Label) → List (Value × Label)
  | [] => [(v, l)]
  | (w, k) :: rest => if k == l then (v, k) :: rest else (w, k) :: setEntries l v rest

/-- Sets the value that flows in from a label. -/
def setIncoming (p : Phi) (l : Label) (v : Value) : Phi :=
  { p with incoming := setEntries l v p.incoming }

/-- Sets the value that flows from a label into the first phi of a target. -/
def setIn (target : Temp) (l : Label) (v : Value) : List Phi → List Phi
  | [] => []
  | p :: ps => if p.target == target then p.setIncoming l v :: ps else p :: setIn target l v ps

/-- The operands, in the order of the entries. -/
def reads (p : Phi) : List Value := p.incoming.map (·.1)

/-- Every incoming value has the type of the phi. -/
def wellTyped (p : Phi) : Bool := p.incoming.all (·.1.ty == p.ty)

/-- Renames incoming labels. -/
def renameLabels (ρ : Label → Label) (p : Phi) : Phi :=
  { p with incoming := p.incoming.map fun e => (e.1, ρ e.2) }

/-- Replaces the values read. -/
def subst (σ : Temp → Option Value) (p : Phi) : Phi :=
  { p with incoming := p.incoming.map fun e => (e.1.subst σ, e.2) }

/-- Renames what is read and what is written; the type stays. -/
def rename (ρ : Temp → Temp) (p : Phi) : Phi :=
  { p with target := ρ p.target, incoming := p.incoming.map fun e => (e.1.rename ρ, e.2) }

/-- A phi as written in program text. -/
def text (p : Phi) : String :=
  let entries := p.incoming.map fun e => s!"[{e.1.text}, %{e.2.name}]"
  s!"{p.target.text} = phi {p.ty.text} " ++ ", ".intercalate entries

end Phi

namespace Instr

/-- The operands, in the order in which they are read. -/
def reads : Instr → List Value
  | arith _ _ _ lhs rhs => [lhs, rhs]
  | comp _ _ _ _ lhs rhs => [lhs, rhs]
  | select _ _ cond lhs rhs => [cond, lhs, rhs]
  | jump _ => []
  | branch _ cond _ _ => [cond]
  | phi p => p.reads
  | ret value => value.toList
  | store value addr => [value, addr]
  | load _ _ addr => [addr]
  | gep _ _ addr offset => [addr, offset]
  | call _ _ _ args => args.map (·.2)
  | vec _ mask inner => inner.reads ++ mask.toList
  | ladder _ _ base _ _ => [base]
  | buildVec _ _ lanes => lanes
  | reduce _ _ _ vector _ => [vector]

/-- The temporaries read, in the same order. -/
def readTemps (i : Instr) : List Temp := i.reads.filterMap Value.temp?

/-- The temporary defined; a call of type `void` defines none. -/
def write : Instr → Option Temp
  | arith t _ _ _ _ | comp t _ _ _ _ _ | select t _ _ _ _ | load t _ _ | gep t _ _ _ => some t
  | phi p => some p.target
  | call t ty _ _ => if ty = .void then none else some t
  | vec _ _ inner => inner.write
  | ladder t _ _ _ _ | buildVec t _ _ | reduce t _ _ _ _ => some t
  | jump _ | branch _ _ _ _ | ret _ | store _ _ => none

/-- Whether the operand types agree with the operator and the declared type. -/
def wellTyped : Instr → Bool
  | arith _ op ty lhs rhs => op.operandTy == ty && lhs.ty == ty && rhs.ty == ty
  | comp t kind op ty lhs rhs =>
    t.ty == .i32 && kind.operandTy == ty && op.operandTy == ty && lhs.ty == ty && rhs.ty == ty
  | select _ ty cond lhs rhs => cond.ty == .i32 && lhs.ty == ty && rhs.ty == ty
  | branch ty cond _ _ => cond.ty == ty
  | phi p => p.wellTyped
  | jump _ | ret _ => true
  | store value addr => addr.ty == value.ty.toPtr
  | load _ ty addr => addr.ty == ty.toPtr
  | gep _ ty addr offset => ty.isPtr && addr.ty == ty && offset.ty == .i32
  | call _ _ _ args => args.all fun a => a.2.ty == a.1
  | vec _ _ inner => inner.wellTyped
  | ladder _ ty base _ _ => base.ty == ty
  | buildVec _ ty lanes => lanes.all (·.ty == ty)
  | reduce _ op ty vector _ => vector.ty == ty && op.operandTy == ty

/-- The labels a terminator may jump to. -/
def targets : Instr → List Label
  | jump l => [l]
  | branch _ _ l m => [l, m]
  | _ => []

/-- Replaces the values read; what is written stays. -/
def subst (σ : Temp → Option Value) : Instr → Instr
  | arith t op ty lhs rhs => arith t op ty (lhs.subst σ) (rhs.subst σ)
  | comp t k op ty lhs rhs => comp t k op ty (lhs.subst σ) (rhs.subst σ)
  | select t ty cond lhs rhs => select t ty (cond.subst σ) (lhs.subst σ) (rhs.subst σ)
  | jump l => jump l
  | branch ty cond l m => branch ty (cond.subst σ) l m
  | phi p => phi (p.subst σ)
  | ret value => ret (value.map (·.subst σ))
  | store value addr => store (value.subst σ) (addr.subst σ)
  | load t ty addr => load t ty (addr.subst σ)
  | gep t ty addr offset => gep t ty (addr.subst σ) (offset.subst σ)
  | call t ty f args => call t ty f (args.map fun a => (a.1, a.2.subst σ))
  | vec w mask inner => vec w (mask.map (·.subst σ)) (inner.subst σ)
  | ladder t ty base s w => ladder t ty (base.subst σ) s w
  | buildVec t ty lanes => buildVec t ty (lanes.map (·.subst σ))
  | reduce t op ty v w => reduce t op ty (v.subst σ) w

/-- Renames what is read and what is written. -/
def rename (ρ : Temp → Temp) : Instr → Instr
  | arith t op ty lhs rhs => arith (ρ t) op ty (lhs.rename ρ) (rhs.rename ρ)
  | comp t k op ty lhs rhs => comp (ρ t) k op ty (lhs.rename ρ) (rhs.rename ρ)
  | select t ty cond lhs rhs =>
    select (ρ t) ty (cond.rename ρ) (lhs.rename ρ) (rhs.rename ρ)
  | jump l => jump l
  | branch ty cond l m => branch ty (cond.rename ρ) l m
  | phi p => phi (p.rename ρ)
  | ret value => ret (value.map (·.rename ρ))
  | store value addr => store (value.rename ρ) (addr.rename ρ)
  | load t ty addr => load (ρ t) ty (addr.rename ρ)
  | gep t ty addr offset => gep (ρ t) ty (addr.rename ρ) (offset.rename ρ)
  | call t ty f args => call (ρ t) ty f (args.map fun a => (a.1, a.2.rename ρ))
  | vec w mask inner => vec w (mask.map (·.rename ρ)) (inner.rename ρ)
  | ladder t ty base s w => ladder (ρ t) ty (base.rename ρ) s w
  | buildVec t ty lanes => buildVec (ρ t) ty (lanes.map (·.rename ρ))
  | reduce t op ty v w => reduce (ρ t) op ty (v.rename ρ) w

/-- Renames jump targets and the labels of incoming values. -/
def renameLabels (ρ : Label → Label) : Instr → Instr
  | jump l => jump (ρ l)
  | branch ty cond l m => branch ty cond (ρ l) (ρ m)
  | phi p => phi (p.renameLabels ρ)
  | vec w mask inner => vec w mask (inner.renameLabels ρ)
  | i => i

/-- Phis. -/
def isPhi : Instr → Bool
  | phi _ => true
  | _ => false

/-- Returns. -/
def isRet : Instr → Bool
  | ret _ => true
  | _ => false

/-- Conditional branches. -/
def isBranch : Instr → Bool
  | branch _ _ _ _ => true
  | _ => false

/-- Calls, those run once per lane included. -/
def isCall : Instr → Bool
  | call _ _ _ _ => true
  | vec _ _ inner => inner.isCall
  | _ => false

/-- Loads, those run once per lane included. -/
def isLoad : Instr → Bool
  | load _ _ _ => true
  | vec _ _ inner => inner.isLoad
  | _ => false

/-- Stores, those run once per lane included. -/
def isStore : Instr → Bool
  | store _ _ => true
  | vec _ _ inner => inner.isStore
  | _ => false

/-- Instructions whose result holds one value per lane. -/
def isVector : Instr → Bool
  | vec _ _ _ | ladder _ _ _ _ _ | buildVec _ _ _ => true
  | _ => false

/-- Effects outside the temporaries come from stores and calls alone. -/
def hasSideEffect (i : Instr) : Bool := i.isStore || i.isCall

/-- An instruction as written in program text. -/
def text : Instr → String
  | arith t op ty lhs rhs => s!"{t.text} = {op.text} {ty.text} {lhs.text}, {rhs.text}"
  | comp t k op ty lhs rhs =>
    s!"{t.text} = {k.text} {op.text} {ty.text} {lhs.text}, {rhs.text}"
  | select t ty cond lhs rhs =>
    s!"{t.text} = select i32 {cond.text}, {ty.text} {lhs.text}, {ty.text} {rhs.text}"
  | jump l => s!"br label %{l.name}"
  | branch ty cond l m => s!"br {ty.text} {cond.text}, label %{l.name}, label %{m.name}"
  | phi p => p.text
  | ret (some v) => s!"ret {v.ty.text} {v.text}"
  | ret none => "ret void"
  | store v a => s!"store {v.ty.text} {v.text}, {a.ty.text} {a.text}"
  | load t ty a => s!"{t.text} = load {ty.text}, {a.ty.text} {a.text}"
  | gep t ty a o =>
    s!"{t.text} = getelementptr {ty.deref.text}, {a.ty.text} {a.text}, {o.ty.text} {o.text}"
  | call t ty f args =>
    let args := ", ".intercalate (args.map fun a => s!"{a.1.text} {a.2.text}")
    if ty = .void then s!"call void @{f}({args})"
    else s!"{t.text} = call {ty.text} @{f}({args})"
  | vec w (some m) inner => s!"vec<{w}, {m.text}> {inner.text}"
  | vec w none inner => s!"vec<{w}> {inner.text}"
  | ladder t ty base s w => s!"{t.text} = ladder {ty.text} {base.text}, {s} x {w}"
  | buildVec t ty lanes =>
    let lanes := ", ".intercalate (lanes.map Value.text)
    s!"{t.text} = buildvec {ty.text} [{lanes}]"
  | reduce t op ty v w => s!"{t.text} = reduce {op.text} {ty.text} {v.text} x {w}"

end Instr

end LoopLanes
