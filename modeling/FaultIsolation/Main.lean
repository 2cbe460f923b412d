import FaultIsolation.Command

/-!
The command line.
-/

namespace FaultIsolation.Command

/-- The content of a file. -/
def readContent (name : String) : IO (Except ReadFailure (List UInt8)) := do
  try
    return .ok (← IO.FS.readBinFile name).toList
  catch e =>
    match e with
    | .noFileOrDirectory .. => return .error .notFound
    | .inappropriateType .. => return .error .isDirectory
    | e => return .error (.other (toString e))

end FaultIsolation.Command

def main (arguments : List String) : IO UInt32 := do
  let result ← FaultIsolation.Command.run FaultIsolation.Command.readContent arguments
  (← IO.getStdout).putStr result.output
  if result.error ≠ "" then (← IO.getStderr).putStrLn result.error
  return result.exitCode
