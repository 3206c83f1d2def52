namespace Holov.Cli

structure Options where
  file : Bool
  debug : Bool
  contents : String
deriving DecidableEq, Repr, Inhabited

inductive Stop where
  | version
  | help
  | usage
deriving DecidableEq, Repr, Inhabited

structure Arguments where
  file : Bool := false
  debug : Bool := false
  contents? : Option String := none
  /-- Whether `--` has ended the flags. -/
  flagsEnded : Bool := false
deriving DecidableEq, Repr, Inhabited

namespace Arguments

inductive Flag where
  | file
  | debug
  | version
  | help
deriving DecidableEq, Repr, Inhabited

def Flag.ofShort? : Char → Option Flag
  | 'f' => some file
  | 'd' => some debug
  | 'V' => some version
  | 'h' => some help
  | _ => none

/-- Long flags are written in full and take no value. -/
def Flag.ofLong? (name : String) : Option Flag :=
  if name = "--file" then some file
  else if name = "--debug" then some debug
  else if name = "--version" then some version
  else if name = "--help" then some help
  else none

/-- A flag that is not known, or that is repeated, is an error. -/
def addFlag (a : Arguments) : Option Flag → Except Stop Arguments
  | some .file => if a.file then .error .usage else .ok { a with file := true }
  | some .debug => if a.debug then .error .usage else .ok { a with debug := true }
  | some .version => .error .version
  | some .help => .error .help
  | none => .error .usage

def addContents (a : Arguments) (s : String) : Except Stop Arguments :=
  if a.contents?.isSome then .error .usage else .ok { a with contents? := some s }

def add (a : Arguments) (s : String) : Except Stop Arguments :=
  if a.flagsEnded then a.addContents s
  else
    match s.toList with
    | ['-', '-'] => .ok { a with flagsEnded := true }
    | '-' :: '-' :: _ => a.addFlag (Flag.ofLong? s)
    -- Short flags may be combined. A dash alone is no flag.
    | '-' :: c :: cs => (c :: cs).foldlM (fun a c => a.addFlag (Flag.ofShort? c)) a
    | _ => a.addContents s

def debugSetting (a : Arguments) (setting? : Option String) : Except Stop Bool :=
  if a.debug then .ok true
  else
    match setting? with
    | none => .ok false
    | some s => if s = "true" then .ok true else if s = "false" then .ok false else .error .usage

/-- Reads a command line from left to right; the first thing that asks for no run decides. -/
def parse (args : List String) (debugVariable? : Option String) : Except Stop Options := do
  let a ← args.foldlM add {}
  match a.contents? with
  | none => .error .usage
  | some contents => return ⟨a.file, ← a.debugSetting debugVariable?, contents⟩

end Arguments

end Holov.Cli
