import HeaderSynopsis.Command.Outcome

namespace HeaderSynopsis

open Command

def contentOf (path : String) : IO (Option ByteArray) := do
  try
    return some (← IO.FS.readBinFile path)
  catch _ => return none

/-- Writes the file of an outcome. If that fails, the failure is the outcome. -/
def save (outcome : Outcome) : IO Outcome := do
  match outcome.saved with
  | none => return outcome
  | some (path, text) =>
      try
        IO.FS.writeFile path text
        return outcome
      catch _ => return .unwritable path

def present (outcome : Outcome) : IO UInt32 := do
  (← IO.getStdout).putStr outcome.output
  (← IO.getStderr).putStr outcome.messages
  return outcome.code.toUInt32

end HeaderSynopsis

open HeaderSynopsis Command in
def main (arguments : List String) : IO UInt32 := do
  match Invocation.ofArguments arguments with
  | .error stop => present stop.outcome
  | .ok command =>
      let outcome := command.run (← contentOf command.path)
      present (← save outcome)
