/-
The program: reads the files its arguments name, runs, and writes.
-/
import Hypertext.Command.Folder

namespace Hypertext.Command

def usage : String := "usage: arbor tree|render|match [OPTIONS] [FILE]\n"

/-- The system's words for a file that could not be read. One that cannot be opened is named. -/
def readFailure : IO.Error → String
  | .noFileOrDirectory _ _ _ => noSuchFile
  | .inappropriateType (some _) _ _ => notADirectory
  | .inappropriateType none _ _ => isADirectory
  | .invalidArgument _ _ "name too long" => nameTooLong
  | .permissionDenied _ _ _ => "Permission denied (os error 13)"
  | e => toString e

def readText (path : String) : IO (Except String String) := do
  try
    match String.fromUTF8? (← IO.FS.readBinFile path) with
    | some text => return .ok text
    | none => return .error "stream did not contain valid UTF-8"
  catch e => return .error (readFailure e)

def serve (request : Request) : IO Exit := do
  let texts ← request.paths.mapM fun path => return (path, ← readText path)
  return request.exit fun path => (texts.lookup path).getD (.error noSuchFile)

end Hypertext.Command

def main (arguments : List String) : IO UInt32 := do
  match Hypertext.Command.Request.read? arguments with
  | none =>
    (← IO.getStderr).putStr Hypertext.Command.usage
    return 2
  | some request =>
    let result ← Hypertext.Command.serve request
    (← IO.getStdout).putStr result.out
    (← IO.getStderr).putStr result.err
    return UInt32.ofNat result.code
