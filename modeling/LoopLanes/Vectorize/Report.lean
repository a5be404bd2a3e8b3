/-
What a run tells its user.

Every event is kept in order.  Report lines are for the user who asked for
diagnostics; log entries are shown from a level on.
-/

namespace LoopLanes

/-- Levels of log entries, the gravest first. -/
inductive LogLevel
  | error | warn | info | debug | trace
  deriving DecidableEq, Repr

namespace LogLevel

/-- The name of a level. -/
def text : LogLevel → String
  | error => "error" | warn => "warn" | info => "info" | debug => "debug" | trace => "trace"

/-- Place among the levels, from 1. -/
def rank : LogLevel → Nat
  | error => 1 | warn => 2 | info => 3 | debug => 4 | trace => 5

/-- Every level. -/
def all : List LogLevel := [error, warn, info, debug, trace]

/-- How many levels are shown under a name, letter case aside; `off` shows none
and any other word those up to `warn`. -/
def shownBy (name : Option String) : Nat :=
  let lower := (name.map (·.map Char.toLower)).getD ""
  if lower = "off" then 0
  else ((all.find? (·.text == lower)).map rank).getD warn.rank

end LogLevel

/-- Something a run tells. -/
inductive Event
  | line (text : String)
  | log (level : LogLevel) (text : String)
  deriving DecidableEq, Repr

namespace Event

/-- The text of a report line. -/
def line? : Event → Option String
  | line s => some s
  | log .. => none

/-- The text to show when the given number of levels is shown. -/
def shown? (levels : Nat) : Event → Option String
  | line s => some s
  | log l s => if l.rank ≤ levels then some s!"[{l.text}] {s}" else none

end Event

/-- Events as lines of text. -/
def Event.render (levels : Nat) (es : List Event) : String :=
  String.join ((es.filterMap (Event.shown? levels)).map (· ++ "\n"))

/-- Stands before every report line. -/
def reportName : String := "loopVecPass"

end LoopLanes
