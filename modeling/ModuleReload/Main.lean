import ModuleReload.FileSystem.Snapshot
import ModuleReload.Program

/-!
# The command line program

Reads a snapshot of the files from standard input, runs the program on it, and writes what the run
leaves behind.
-/

namespace ModuleReload

/-- The lines of standard input, at most `n` of them. -/
def readLines (input : IO.FS.Stream) : Nat → List String → IO (List String)
  | 0, lines => return lines.reverse
  | n + 1, lines => do
    let line ← input.getLine
    if line.isEmpty then return lines.reverse
    let line := if line.endsWith "\n" then (line.dropEnd 1).toString else line
    readLines input n (line :: lines)

/-- The greatest number of lines of a snapshot. -/
def snapshotLimit : Nat := 10000000

end ModuleReload

open ModuleReload

def main (args : List String) : IO UInt32 := do
  let files ← readLines (← IO.getStdin) snapshotLimit []
  let verbosity ← IO.getEnv Settings.verbosityVariable
  let root ← IO.getEnv Settings.rootVariable
  let result := Program.run (.ofSnapshot files) ⟨verbosity, root⟩ args
  IO.print result.output
  IO.eprint result.messages
  return result.code.toUInt32
