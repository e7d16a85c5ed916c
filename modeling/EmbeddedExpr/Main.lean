import EmbeddedExpr.CommandLine.Run

/-!
# The command line

Reads what the settings ask for, runs them and prints the answer.
-/

namespace EmbeddedExpr.CommandLine

/-- What is left of the standard input. -/
partial def readInput (stdin : IO.FS.Stream) (acc : String) : IO String := do
  let line ← stdin.getLine
  if line.isEmpty then pure acc else readInput stdin (acc ++ line)

/-- The text of a file, if it can be read. -/
def readFile? (path : String) : IO (Option String) := do
  match ← (IO.FS.readFile path).toBaseIO with
  | .ok text => pure (some text)
  | .error _ => pure none

/-- Runs well-formed arguments. -/
def answer (s : Settings) : IO Answer := do
  let file ← match s.bindingsFile with
    | some path => readFile? path
    | none => pure none
  let input ← match s.expression with
    | some _ => pure ""
    | none => readInput (← IO.getStdin) ""
  pure (run s file input)

end EmbeddedExpr.CommandLine

open EmbeddedExpr in
/-- Answers the arguments on the standard output and with the exit code. -/
def main (args : List String) : IO UInt32 := do
  let answer ← match CommandLine.Settings.ofArgs? args with
    | some s => CommandLine.answer s
    | none => pure .malformed
  IO.print answer.output
  for complaint in answer.complaints do
    IO.eprintln complaint
  pure answer.code.toUInt32
