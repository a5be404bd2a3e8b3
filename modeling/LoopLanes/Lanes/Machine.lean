/-
The machine that programs run on: memory, output and a count of steps, and the
temporaries of one activation.

An operation that fails leaves the machine as it is at that moment, so that
output and memory up to the failure can be seen.
-/
import LoopLanes.Lanes.Cell
import LoopLanes.Basic.Table

namespace LoopLanes

/-- What a run works on. -/
structure Machine where
  memory : Array Cell
  output : Array String
  steps : Nat
  deriving Inhabited

/-- A computation on the machine. -/
abbrev Exec := ExceptT RunError (StateM Machine)

/-- One value per lane; a single one stands for all lanes. -/
abbrev Lanes := List Cell

/-- The temporaries of an activation that have a value. -/
abbrev Frame := List (Temp × Lanes)

/-- A run may take this many steps. -/
def maxSteps : Nat := 10000000

namespace Machine

/-- A machine that has done nothing yet. -/
def start : Machine := ⟨#[], #[], 0⟩

/-- Copies values into fresh memory; answers the place of the first. -/
def alloc (m : Machine) (values : List Cell) : Cell × Machine :=
  (.ptr m.memory.size, { m with memory := m.memory ++ values.toArray })

/-- The values from a place on. -/
def readArray (m : Machine) (pointer : Cell) (len : Nat) : Except RunError (List Cell) := do
  let base ← pointer.toPlace
  if base + len ≤ m.memory.size then return (m.memory.extract base (base + len)).toList
  else throw (.notInMemory (base + len))

/-- The value at a place. -/
def load (m : Machine) (pointer : Cell) : Except RunError Cell := do
  let place ← pointer.toPlace
  match m.memory[place]? with
  | some v => return v
  | none => throw (.notInMemory place)

/-- Puts a value at a place. -/
def store (m : Machine) (pointer value : Cell) : Except RunError Machine := do
  let place ← pointer.toPlace
  if place < m.memory.size then return { m with memory := m.memory.setIfInBounds place value }
  else throw (.notInMemory place)

end Machine

namespace Exec

/-- Takes part in a run a result that does not touch the machine. -/
def lift (r : Except RunError α) : Exec α := ExceptT.mk (pure r)

/-- Counts a step, in a word of 64 bits. -/
def tick : Exec Unit := do
  modify fun m => { m with steps := wrapU64 (m.steps + 1) }
  if maxSteps < (← get).steps then throw (.stepLimit maxSteps)

/-- Writes a line of output. -/
def print (line : String) : Exec Unit :=
  modify fun m => { m with output := m.output.push line }

end Exec

/-- The one value of lanes that all agree. -/
def Lanes.uniform (lanes : Lanes) : Except RunError Cell :=
  match lanes with
  | [] => .error .divergentValue
  | first :: _ => if lanes.all (·.same first) then .ok first else .error .divergentValue

namespace Frame

/-- All lanes of an operand. -/
def read (fr : Frame) : Value → Except RunError Lanes
  | .int v => .ok [.int v]
  | .float v => .ok [.float v]
  | .temp t =>
    match fr.lookup t with
    | some lanes => .ok lanes
    | none => .error (.undefinedTemp t.text)

/-- The value of an operand for all lanes alike. -/
def readUniform (fr : Frame) (v : Value) : Except RunError Cell := do
  Lanes.uniform (← fr.read v)

/-- One lane of an operand. -/
def lane (fr : Frame) (v : Value) (i : Nat) : Except RunError Cell :=
  match v with
  | .temp t =>
    match fr.lookup t with
    | none => .error (.undefinedTemp t.text)
    | some [single] => .ok single
    | some lanes =>
      match lanes[i]? with
      | some c => .ok c
      | none => .error (.unsupported s!"lane {i} of {t.text}")
  | v => fr.readUniform v

/-- Number of lanes of a temporary; one where it has no value. -/
def width (fr : Frame) (t : Temp) : Nat := ((fr.lookup t).map List.length).getD 1

end Frame

end LoopLanes
