/-
`Main.lean` -- the command: reads the file, if there is one to read, and writes
what `CommandLine` says.
-/
import MiniPascal.CommandLine

set_option autoImplicit false

open MiniPascal

/-- The text of a file, if it can be read and is text. -/
def readText (name : String) : IO (Option String) :=
  try
    return some (← IO.FS.readFile name)
  catch _ => return none

/-- Answers the command line. -/
def main (args : List String) : IO UInt32 := do
  let outcome ← CommandLine.answer readText (CommandLine.request args)
  IO.print outcome.output
  IO.eprint outcome.diagnostics
  return outcome.code
