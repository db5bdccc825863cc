import Reckon.CommandLine.Response
/-!
# The command line

Evaluates one expression, given as an argument or in a file.
-/

namespace Reckon

/-- The fault of a file, given the error of the system. -/
def FileFault.ofError : IO.Error → FileFault
  | .noFileOrDirectory .. => missing
  | .permissionDenied .. => denied
  | .inappropriateType _ code _ => if code = 21 then directory else notDirectory
  | .invalidArgument .. => nameTooLong
  | e => other (toString e)

/-- The bytes of the file at a path, or why there are none. -/
def readBytes (path : String) : IO (Except FileFault ByteArray) := do
  try
    return .ok (← IO.FS.readBinFile path)
  catch e =>
    return .error (.ofError e)

end Reckon

/-- Answers the arguments on the two output streams. -/
def main (arguments : List String) : IO UInt32 := do
  let response ← Reckon.Response.ofArguments Reckon.readBytes arguments
  (← IO.getStdout).putStr response.output
  (← IO.getStderr).putStr response.errors
  return response.exitCode
