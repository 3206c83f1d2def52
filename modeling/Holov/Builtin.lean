import Holov.Value

namespace Holov

inductive Builtin where
  | print
deriving DecidableEq, Repr, Inhabited

namespace Builtin

def all : List Builtin :=
  [print]

def name : Builtin → String
  | print => "տպիր"

def ofName? (s : String) : Option Builtin :=
  all.find? fun f => f.name == s

/-- What a call writes: the arguments on one line, with commas between them. -/
def output : Builtin → List Value → String
  | print, args => ", ".intercalate (args.map Value.display) ++ "\n"

end Builtin

end Holov
