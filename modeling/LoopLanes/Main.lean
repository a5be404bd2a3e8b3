/-
The command `loopvec`: reads a program, vectorizes its loops and writes the
result.
-/
import LoopLanes.Command.Job

namespace LoopLanes.Command

/-- How the command is used. -/
def usageText : String :=
  "Usage: loopvec [OPTIONS] [INPUT]\n\n" ++
  "  INPUT                    input file, - for standard input\n" ++
  "  -o OUTPUT                output file\n" ++
  "  --force-width N          number of lanes for every triggered loop\n" ++
  "  --disable                change nothing\n" ++
  "  --diag                   print diagnostics\n" ++
  "  --print-function         print each function before it is vectorized\n" ++
  "  --max-vector-bits N      width of a vector register\n" ++
  "  --emit-prepared          stop once the loops are prepared\n"

/-- The cause of a failed access. -/
def accessError : IO.Error → AccessError
  | .noFileOrDirectory _ code reason | .permissionDenied _ code reason
  | .inappropriateType _ code reason | .invalidArgument _ code reason
  | .resourceExhausted _ code reason | .noSuchThing _ code reason
  | .resourceVanished code reason | .hardwareFault code reason
  | .otherError code reason => .ofCode reason code.toNat
  | _ => .notText

/-- Reads a file, or standard input for `-`. -/
def readSource (path : String) : IO String := do
  if path = "-" then (← IO.getStdin).readToEnd
  else IO.FS.readFile path

/-- Where the output goes: a file, or standard output. -/
def openResult (path : Option String) : IO IO.FS.Stream :=
  match path with
  | some p => return .ofHandle (← IO.FS.Handle.mk p .write)
  | none => IO.getStdout

/-- Writes a text to its end. -/
def writeResult (stream : IO.FS.Stream) (text : String) : IO Unit := do
  stream.putStr text
  stream.flush

/-- Shows the user why a command failed; answers the exit code. -/
def failed (errors : String) : IO UInt32 := do
  IO.eprint errors
  return 1

/-- Carries a job out; answers the exit code. -/
def carryOut (job : Job) (path : String) : IO UInt32 := do
  match ← (readSource path).toBaseIO with
  | .error e => failed (job.unreadable (accessError e))
  | .ok text =>
    let ending := job.finish text
    match ending.output with
    | none => failed ending.errors
    | some out =>
      match ← (openResult job.args.output).toBaseIO with
      | .error e => failed (ending.unopened (accessError e))
      | .ok stream =>
        match ← (writeResult stream out).toBaseIO with
        | .error e => failed (ending.unwritten (accessError e))
        | .ok () =>
          IO.eprint ending.errors
          return 0

end LoopLanes.Command

open LoopLanes

/-- Carries out a command line. -/
def main (args : List String) : IO UInt32 := do
  let names := [Command.logVar, Config.forceWidthVar, Config.disableVar, Config.diagnosticsVar,
    Config.printFunctionVar]
  let vars ← names.filterMapM fun n => do return (← IO.getEnv n).map fun v => (n, v)
  match Command.start args (fun k => List.lookup k vars) with
  | .usage .help =>
    IO.print Command.usageText
    return 0
  | .usage .refused =>
    IO.eprint Command.usageText
    return 2
  | .failed errors =>
    IO.eprint errors
    return 1
  | .read job path => Command.carryOut job path
