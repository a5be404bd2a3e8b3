/-
Recurrences of header phis.

A phi of a loop header is part of a recurrence when it depends on itself.  If
the recurrence only adds constants, the phi is strided; else it is a reduction,
of the kind that its operators agree on.
-/
import LoopLanes.Recurrence.Component
import LoopLanes.Shape.Basic
import LoopLanes.Loop.Forest

namespace LoopLanes

/-- A phi that gains a constant on every round. -/
structure StridePattern where
  phi : Temp
  elements : List Temp
  stride : Int

/-- A phi whose new value is combined from its old one. -/
structure Reduction where
  phi : Temp
  elements : List Temp
  kind : RedKind
  ty : Ty
  /-- whether an instruction outside the recurrence reads one of its values -/
  hasForeignUser : Bool

/-- The recurrences of a loop. -/
structure Recurrences where
  strides : List StridePattern
  reductions : List Reduction

/-- Temporaries in sort order, as shown in texts. -/
def Temp.sortedNames (ts : List Temp) : String :=
  ", ".intercalate ((sorted ts).map text)

namespace StridePattern

/-- The shape of the phi. -/
def shape (p : StridePattern) : LaneShape := .ofStride p.stride

/-- A pattern as shown. -/
def text (p : StridePattern) : String :=
  s!"StridePattern \x7b phi: {p.phi.text}, stride: {p.stride}, " ++
    s!"elements: [{Temp.sortedNames p.elements}] \x7d"

/-- Whether a value is one of some temporaries. -/
def among (elements : List Temp) (v : Value) : Bool := v.temp?.any elements.contains

/-- The constant that one step of a recurrence adds. -/
def addend? (elements : List Temp) : Instr → Option Int
  | .arith _ .add _ lhs (.int c) => if among elements lhs then some c.toInt else none
  | .arith _ .add _ (.int c) rhs => if among elements rhs then some c.toInt else none
  | .arith _ .sub _ lhs (.int c) => if among elements lhs then fitI32? (-c.toInt) else none
  | _ => none

/-- The sum of the constants that the steps of a recurrence add, if they do
nothing else and the sum never leaves the word. -/
def sum? (g : UseGraph) (elements : List Temp) (phi : Temp) (ty : Ty) : Option Int :=
  if ty = .i32 then
    (elements.filter (· != phi)).foldlM
      (fun sum t => do fitI32? (sum + (← addend? elements (← g.definition? t)))) 0
  else none

end StridePattern

namespace Reduction

/-- The shape of the phi. -/
def shape (r : Reduction) : LaneShape := .partials r.kind

/-- A reduction as shown. -/
def text (r : Reduction) : String :=
  s!"Reduction \x7b phi: {r.phi.text}, kind: {r.kind.text}, " ++
    s!"elements: [{Temp.sortedNames r.elements}] \x7d"

/-- The kind of one step; steps that only pass a value on have none. -/
def stepKind (elements : List Temp) : Option Instr → Option RedKind
  | none => some .bot
  | some (.phi _) => none
  | some (.select _ _ cond _ _) =>
    if StridePattern.among elements cond then some .bot else none
  | some (.arith _ op _ lhs rhs) =>
    let inL := StridePattern.among elements lhs
    let inR := StridePattern.among elements rhs
    if inL && inR then some .bot
    -- a difference only accumulates what stands on its right
    else if op = .sub ∨ op = .fsub then some (if inL then .add else .bot)
    else some (RedKind.ofOp op)
  | some _ => some .bot

/-- The kind that all steps of a recurrence agree on. -/
def kindOf (g : UseGraph) (elements : List Temp) (phi : Temp) : RedKind :=
  let kinds := (elements.filter (· != phi)).filterMap fun t => stepKind elements (g.definition? t)
  match kinds with
  | [] => .bot
  | k :: ks => ks.foldl RedKind.join k

/-- Whether something outside the recurrence reads one of its values. -/
def foreignUse (g : UseGraph) (elements : List Temp) : Bool :=
  elements.any fun e => (g.users e).any fun s => !s.2.write.any elements.contains

end Reduction

namespace Recurrences

/-- No recurrences. -/
def empty : Recurrences := ⟨[], []⟩

/-- The stride pattern of a phi. -/
def stride? (r : Recurrences) (phi : Temp) : Option StridePattern :=
  r.strides.find? (·.phi == phi)

/-- The reduction of a phi. -/
def reduction? (r : Recurrences) (phi : Temp) : Option Reduction :=
  r.reductions.find? (·.phi == phi)

/-- Classifies the recurrence of one header phi, given its component. -/
def classify (g : UseGraph) (phis : List Temp) (phi : Temp) (ty : Ty) (elements : List Temp)
    (r : Recurrences) : Recurrences :=
  if elements.length = 1 ∧ !(g.operands phi).contains phi then r
  else
    match StridePattern.sum? g elements phi ty with
    | some stride => { r with strides := ⟨phi, elements, stride⟩ :: r.strides }
    | none =>
      -- two header phis that depend on each other are no single accumulator
      let coupled := elements.any fun e => e != phi && phis.contains e
      let kind := if coupled then .bot else Reduction.kindOf g elements phi
      let red : Reduction := ⟨phi, elements, kind, ty, Reduction.foreignUse g elements⟩
      { r with reductions := red :: r.reductions }

/-- The recurrences of some phis over the blocks of a loop. -/
def ofPhis (g : UseGraph) (phis : List Phi) : Recurrences :=
  let targets := phis.map (·.target)
  (phis.foldl
    (fun (s, r) p =>
      let s := ComponentSearch.run g p.target s
      match s.component? p.target with
      | none => (s, r)
      | some elements => (s, classify g targets p.target p.ty elements r))
    (ComponentSearch.empty, empty)).2

/-- The recurrences of a loop. -/
def ofLoop (f : Func) (t : LoopForest) (l : Loop) : Recurrences :=
  let phis := ((f.linked? l.header).map (·.phis)).getD []
  ofPhis (.ofBlocks (l.blocks f t)) phis

/-- Follows the recurrences into a copy of the loop with renamed temporaries. -/
def rename (ρ : Temp → Temp) (r : Recurrences) : Recurrences :=
  ⟨r.strides.map fun p => { p with phi := ρ p.phi, elements := p.elements.map ρ },
    r.reductions.map fun p => { p with phi := ρ p.phi, elements := p.elements.map ρ }⟩

end Recurrences

end LoopLanes
