import Holov.Program
import Holov.Text.Quoted

namespace Holov

def indent (depth : Nat) : String :=
  String.join (List.replicate depth "  ")

mutual

/-- The rest of a statement's line, and the lines of the body of a function literal. -/
def Expr.listing (depth : Nat) : Expr → String
  | .value t => "Value(" ++ t.kind.name ++ " " ++ quotedText t.text ++ ")\n"
  | .function params body =>
    "Function(" ++ ", ".intercalate params ++ ")\n" ++ listBlock (depth + 1) body
  | .call callee _ args =>
    "Call " ++ callee ++ "(" ++ ", ".intercalate (args.map fun t => quotedText t.text) ++ ")\n"

def Statement.listing (depth : Nat) : Statement → String
  | .definition e name _ => indent depth ++ "Definition " ++ name ++ " = " ++ e.listing depth
  | .expression e => indent depth ++ "Expression " ++ e.listing depth

def listBlock (depth : Nat) : List Statement → String
  | [] => ""
  | s :: rest => s.listing depth ++ listBlock depth rest

end

def listProgram (block : Block) : String :=
  listBlock 0 block

end Holov
