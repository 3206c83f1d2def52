import Holov.Cli

namespace Holov.Cli

def readErrorOf : IO.Error → ReadError
  | .noFileOrDirectory .. => .notFound
  | .inappropriateType _ 21 _ => .isDirectory
  | .invalidArgument .. => .nameTooLong
  | .permissionDenied .. => .denied
  | _ => .notDirectory

def readScript (path : String) : IO (Except ReadError String) := do
  try
    return decodeText (← IO.FS.readBinFile path)
  catch e => return .error (readErrorOf e)

def exitFor (options : Options) : IO Exit := do
  if options.file then
    match ← readScript options.contents with
    | .ok script => return perform options.debug script
    | .error e => return e.exit options.contents
  else return perform options.debug options.contents

end Holov.Cli

def main (args : List String) : IO UInt32 := do
  let debugVariable? ← IO.getEnv "BAN_DEBUG"
  let exit ← match Holov.Cli.Arguments.parse args debugVariable? with
    | .error stop => pure stop.exit
    | .ok options => Holov.Cli.exitFor options
  (← IO.getStdout).write ⟨exit.stdout⟩
  (← IO.getStderr).putStr exit.stderr
  return exit.code.toUInt32
