import Concord.CommandLine.Run
import Concord.CommandLine.Snapshot

/-!
# The program

The files of a project are read from standard input as a snapshot. What is told goes to standard
output, followed by the files that were changed, in the same form; complaints go to standard error.
-/

namespace Concord.CommandLine

/-- The lines that are left in a stream, without the line feeds at their ends. -/
partial def readLines (input : IO.FS.Stream) (read : Array String) : IO (List String) := do
  let line ← input.getLine
  if line.isEmpty then return read.toList
  let line := if line.back = '\n' then (line.dropEnd 1).toString else line
  readLines input (if line.isEmpty then read else read.push line)

/-- What the variables of the process say. Colour can be asked for and refused; otherwise a screen
gets it. -/
def readEnvironment (screen : Bool) : IO Environment := do
  let forced := (← IO.getEnv "CLICOLOR_FORCE").any (· ≠ "0")
  let refused := (← IO.getEnv "NO_COLOR").isSome
  return {
    sourceRoot := ← IO.getEnv "LOCSYNC_SOURCE_ROOT"
    colored := forced || (screen && !refused)
    warns := true }

end Concord.CommandLine

open Concord CommandLine in
/-- Run what the arguments ask for on the project that is read. -/
def main (args : List String) : IO UInt32 := do
  let output ← IO.getStdout
  let environment ← readEnvironment (← output.isTty)
  let lines ← readLines (← IO.getStdin) #[]
  match Snapshot.read ((← IO.getEnv "PWD").getD "/") lines with
  | .error _ =>
    IO.eprintln "Error: the snapshot of the project cannot be read"
    return 2
  | .ok tree =>
    let outcome := run environment args tree
    output.putStr outcome.output
    for line in Snapshot.changes tree outcome.tree do output.putStrLn line
    IO.eprint outcome.complaints
    return outcome.status.toUInt32
