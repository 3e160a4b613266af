import ChessEngine.CommandLine
import ChessEngine.Zobrist.Standard

/-!
# The program

Prints what `CommandLine.run` answers and ends with its exit code.
-/

/-- Runs the program with its default log level. -/
def main (args : List String) : IO UInt32 := do
  let output := ChessEngine.CommandLine.run args .info
  for line in output.lines do
    IO.println line
  return UInt32.ofNat output.exitCode
