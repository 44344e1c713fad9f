import MatrixCalculator.CommandLine

/-!
# The program

Fetches the arguments, the environment and the input, and writes the outcome of
the run.
-/

open MatrixCalculator

/-- The variables of the environment that are set, with their values. -/
def fetchEnvironment (names : List Text) : IO (List (Text × Text)) :=
  names.filterMapM fun name => do
    return (← IO.getEnv (String.ofList name)).map fun value => (name, value.toList)

def main (arguments : List String) : IO UInt32 := do
  let environment ← fetchEnvironment CommandLine.localeVariables
  let request := CommandLine.request (arguments.map String.toList) environment
  let input ← if request.readsInput then (← IO.getStdin).readBinToEnd else pure ByteArray.empty
  let outcome := request.run input.toList
  IO.print (String.ofList outcome.output)
  IO.eprint (String.ofList outcome.errors)
  return outcome.code.toUInt32
