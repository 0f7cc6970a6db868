import AgentLab.Calc.Console
/-!
The calculator on a terminal: the console's prompts and answers on standard output, its lines
from standard input. With `--test` among the arguments it prints the self-check and ends. When
input ends while the console waits for a line, it says so on standard error and fails.
-/

namespace AgentLab.Calc

def Console.lineOf (raw : String) : String :=
  let cs := raw.toList
  let cs := if cs.getLast? = some '\n' then cs.dropLast else cs
  String.ofList (if cs.getLast? = some '\r' then cs.dropLast else cs)

/-- Prompts, reads and answers until the console finishes or input ends. -/
partial def Console.converse (stdin stdout : IO.FS.Stream) (c : Console) : IO UInt32 := do
  match c.prompt with
  | none => return 0
  | some p =>
    stdout.putStr p
    stdout.flush
    let raw ← stdin.getLine
    if raw.isEmpty then
      (← IO.getStderr).putStrLn "EOFError: EOF when reading a line"
      return 1
    let (out, next) := c.feed (Console.lineOf raw)
    stdout.putStr out
    Console.converse stdin stdout next

end AgentLab.Calc

open AgentLab.Calc in
def main (args : List String) : IO UInt32 := do
  let stdout ← IO.getStdout
  let (opening, c) := Console.start args
  stdout.putStr opening
  Console.converse (← IO.getStdin) stdout c
