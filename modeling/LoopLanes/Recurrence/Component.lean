/-
Strongly connected components of a use graph.

A depth-first search numbers the temporaries in the order of their first visit
and keeps the open ones on a stack.  Once all operands of a temporary are done
and none of them reaches further back than itself, it and what lies above it on
the stack form a component.
-/
import LoopLanes.Recurrence.UseGraph

namespace LoopLanes

/-- The state of the search, kept from one start to the next. -/
structure ComponentSearch where
  /-- visit numbers, the latest first -/
  visited : List (Temp × Nat)
  stack : List Temp
  /-- components in the order in which they were completed -/
  components : List (List Temp)
  deriving Inhabited

namespace ComponentSearch

/-- Nothing is visited yet. -/
def empty : ComponentSearch := ⟨[], [], []⟩

/-- The visit number of a temporary. -/
def number? (s : ComponentSearch) (t : Temp) : Option Nat := s.visited.lookup t

/-- Takes a component off the stack, down to the temporary that heads it. -/
def close (s : ComponentSearch) (t : Temp) : ComponentSearch :=
  let above := s.stack.takeWhile (· != t)
  ⟨s.visited, s.stack.drop (above.length + 1), s.components ++ [above ++ [t]]⟩

/-- Visits a temporary; answers the smallest number it reaches on the stack.
Each visit is to a new temporary, which bounds the fuel. -/
def visit (g : UseGraph) : Nat → Temp → ComponentSearch → Nat × ComponentSearch
  | 0, _, s => (0, s)
  | fuel + 1, t, s =>
    let n := s.visited.length
    let s : ComponentSearch := ⟨(t, n) :: s.visited, t :: s.stack, s.components⟩
    let (low, s) := (g.operands t).foldl
      (fun (low, s) u =>
        match s.number? u with
        | none =>
          let (l, s) := visit g fuel u s
          (min low l, s)
        | some k => if s.stack.contains u then (min low k, s) else (low, s))
      (n, s)
    if low = n then (low, s.close t) else (low, s)

/-- Searches from a temporary, unless it has been visited. -/
def run (g : UseGraph) (t : Temp) (s : ComponentSearch) : ComponentSearch :=
  if (s.number? t).isSome then s else (visit g (g.sites.length + 1) t s).2

/-- The component of a visited temporary. -/
def component? (s : ComponentSearch) (t : Temp) : Option (List Temp) :=
  s.components.find? (·.contains t)

end ComponentSearch

end LoopLanes
