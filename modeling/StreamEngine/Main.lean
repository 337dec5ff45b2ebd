import StreamEngine.CommandLine.Run

/-!
# The program

Reads the files that the command line names, runs it, and prints what the run leaves behind.
-/

namespace StreamEngine

/-- The text of a file, or nothing if it cannot be read. -/
def readText (path : String) : IO (Option String) :=
  try
    let text ← IO.FS.readFile path
    return some text
  catch _ => return none

/-- The texts of files by name. -/
def readTexts (paths : List String) : IO (List (String × String)) := do
  let texts ← paths.mapM fun path => do
    let text ← readText path
    return text.map fun t => (path, t)
  return texts.filterMap id

end StreamEngine

open StreamEngine

def main (args : List String) : IO UInt32 := do
  let texts ← readTexts (CommandLine.filesOf args)
  let report := CommandLine.run (fun path => texts.lookup path) args
  IO.print report.out
  (← IO.getStdout).flush
  for message in report.messages do
    IO.eprintln message
  return UInt32.ofNat report.code
