/-
The command itself: reads its words, prints what the response says, and exits with its code.
-/
import BitcoinScript.CommandLine

/-- runs a script given in hexadecimal and shows every step -/
def main (words : List String) : IO UInt32 := do
  let response : BitcoinScript.CommandLine.Response :=
    match BitcoinScript.CommandLine.Arguments.ofWords words with
    | .ok args => BitcoinScript.CommandLine.respond args
    | .error message => ⟨2, "", message ++ "\n"⟩
  (← IO.getStdout).putStr response.output
  (← IO.getStderr).putStr response.errors
  return response.exitCode.toUInt32
