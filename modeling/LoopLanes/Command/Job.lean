/-
A run of the command from its arguments to its output.

`Command.start` decides what to read, `Job.finish` what comes of the text.
Reading and writing themselves are left to whoever carries the command out.
-/
import LoopLanes.Command.Access
import LoopLanes.Command.Args
import LoopLanes.Vectorize.Pass
import LoopLanes.Text.Reader

namespace LoopLanes

namespace Config

/-- Puts the settings of a command line on top of others. -/
def merge (c : Config) (a : Args) : Except ConfigError Config := do
  let width ←
    match a.forceWidth with
    | some w => (readWidth (toString w)).map some
    | none => pure c.forceWidth
  let bits ←
    match a.maxVectorBits with
    | some n =>
      if n < 32 ∨ !isPowerOfTwo n then throw (.badVectorBits n) else pure n
    | none => pure c.maxVectorBits
  return {
    forceWidth := width
    disabled := c.disabled || a.disable
    diagnostics := c.diagnostics || a.diag
    printFunction := c.printFunction || a.printFunction
    maxVectorBits := bits
    emitPrepared := c.emitPrepared || a.emitPrepared }

/-- The settings of variables and a command line. -/
def load (get : String → Option String) (a : Args) : Except ConfigError Config := do
  (← ofVars get).merge a

end Config

/-- A command that knows what to do with the text it reads. -/
structure Job where
  args : Args
  config : Config
  /-- number of log levels shown -/
  levels : Nat

/-- How a command begins. -/
inductive Start
  /-- the command line is not carried out -/
  | usage (why : UsageExit)
  /-- the command fails at once, with this text for the user -/
  | failed (errors : String)
  /-- the command reads a file, or standard input where the path is `-` -/
  | read (job : Job) (path : String)

namespace Command

/-- The variable that says which log entries are shown. -/
def logVar : String := "LOOPVEC_LOG"

/-- A failure that the command names itself. -/
def fatal (message : String) : String := s!"fatal error: {message}\n"

/-- A failure of one of its steps. -/
def stepFailed (message : String) : String := s!"Error: {message}\n"

/-- A failure to open a file, or to read it. -/
def systemFailed (e : AccessError) : String := stepFailed s!"system error: {e.message}"

/-- The log entry with which a command begins. -/
def opening (levels : Nat) : String := Event.render levels [.log .trace "start"]

/-- Begins a command. -/
def start (args : List String) (get : String → Option String) : Start :=
  let levels := LogLevel.shownBy (get logVar)
  match Args.read args with
  | .error why => .usage why
  | .ok a =>
    match Config.load get a with
    | .error e => .failed (opening levels ++ fatal e.message)
    | .ok config =>
      match a.input with
      | none => .failed (opening levels ++ fatal "no input files")
      | some path => .read ⟨a, config, levels⟩ path

end Command

/-- How a command ends: what the user is shown, and the output if there is
any. -/
structure Ending where
  errors : String
  output : Option String

namespace Ending

/-- What the user is shown where the file for the output cannot be opened. -/
def unopened (e : Ending) (cause : AccessError) : String :=
  e.errors ++ Command.systemFailed cause

/-- What the user is shown where the output cannot be written. -/
def unwritten (e : Ending) (cause : AccessError) : String :=
  e.errors ++ Command.stepFailed cause.message

end Ending

namespace Job

/-- What the user is shown where the input cannot be read. -/
def unreadable (j : Job) (e : AccessError) : String :=
  Command.opening j.levels ++ Command.systemFailed e

/-- What the user is shown where the text is no program. -/
def refused (j : Job) (e : SourceError) : String :=
  let opening := Command.opening j.levels
  match e with
  | .grammar => opening ++ "Error: syntax error"
  | e => opening ++ Command.stepFailed s!"syntax error: {e.message}"

/-- Vectorizes the text that was read. -/
def finish (j : Job) (text : String) : Ending :=
  match Program.parse text with
  | .error e => ⟨j.refused e, none⟩
  | .ok p =>
    let (r, s) := p.vectorize.run.run (.ofConfig j.config)
    let shown := Command.opening j.levels ++ Event.render j.levels s.events
    match r with
    | .error e => ⟨shown ++ Command.fatal e.message, none⟩
    | .ok (changed, p) =>
      let word := if changed then "true" else "false"
      let closing := Event.render j.levels [.log .trace s!"changed: {word}"]
      ⟨shown ++ closing, some p.text⟩

end Job

end LoopLanes
