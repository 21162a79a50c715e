import ChartPipeline.CommandLine

/-!
# The program

Reads the files that the arguments name, and prints what the command line answers. Events go to
the standard error stream.
-/

namespace ChartPipeline.CommandLine

def contentsOf? (file : String) : IO (Option String) := do
  try return some (← IO.FS.readFile file) catch _ => return none

def input? : IO (Option String) := do
  try return some (← (← IO.getStdin).readToEnd) catch _ => return none

def Invocation.contents (i : Invocation) : IO Contents := do
  let config ← (i.config.mapM contentsOf?)
  let spec ← (i.spec.mapM contentsOf?)
  let input ← if i.spec.isSome then pure none else input?
  return {
    file? := fun file =>
      if i.config = some file then config.join
      else if i.spec = some file then spec.join
      else none
    input? := input }

end ChartPipeline.CommandLine

open ChartPipeline CommandLine in
def main (args : List String) : IO UInt32 := do
  match Invocation.ofArguments? args with
  | none =>
    IO.eprintln "Usage: [--pretty] [--config FILE] [FILE]"
    return 2
  | some invocation =>
    let (events, result) := invocation.run (← invocation.contents)
    for line in Event.lines .warn events do
      IO.eprintln line
    match result with
    | .ok text =>
      IO.print text
      return 0
    | .error failure =>
      IO.eprintln failure.message
      if let .invalidSpec cause := failure then
        IO.eprintln cause.message
      return 1
