import Holov.Cli.Arguments
import Holov.Cli.Folder
import Holov.Run

namespace Holov.Cli

structure Exit where
  code : UInt8 := 0
  stdout : Array UInt8 := #[]
  stderr : String := ""
deriving DecidableEq, Repr, Inhabited

def callDepth : Nat := 10000

def versionText : String := "ban 0.1.0\n"

def usageText : String :=
  "Usage: ban [-f | --file] [-d | --debug] [-V | --version] <CONTENTS>\n"

def Stop.exit : Stop → Exit
  | version => { stdout := versionText.toUTF8.data }
  | help => { stdout := usageText.toUTF8.data }
  | usage => { code := 2, stderr := usageText }

def ReadError.exit (e : ReadError) (path : String) : Exit :=
  { code := 1, stderr := "Failed to read the input file '" ++ path ++ "': " ++ e.message ++ "\n" }

def perform (debug : Bool) (script : String) : Exit :=
  match run debug callDepth script {} with
  | (.completed, m) => { stdout := m.sink.written }
  | (.failed f, m) => { code := 1, stdout := m.sink.written, stderr := f.message ++ "\n" }
  | (.tooDeep, m) => { code := 1, stdout := m.sink.written, stderr := "Calls nest too deeply.\n" }

/-- The command in a folder, with the value that the environment gives to the debug setting. -/
def command (args : List String) (debugVariable? : Option String) (folder : Folder) : Exit :=
  match Arguments.parse args debugVariable? with
  | .error stop => stop.exit
  | .ok options =>
    if options.file then
      match folder.readText options.contents with
      | .ok script => perform options.debug script
      | .error e => e.exit options.contents
    else perform options.debug options.contents

end Holov.Cli
