import Holov.Lexeme
import Holov.Text.Quoted

namespace Holov

structure LexError where
  fault : Lexeme.Fault
  position : Position
deriving DecidableEq, Repr, Inhabited

def Lexeme.Fault.message : Lexeme.Fault → String
  | stray c => "Unexpected character " ++ quotedChar c ++ "."
  | unclosedComment => "Comment is never closed."
  | unclosedQuote => "Quoted text is never closed."

def LexError.message (e : LexError) : String :=
  e.position.report e.fault.message

/-- The tokens of a text that starts at `p`, where `pending` says whether the next `«` opens a
function body. -/
def tokensFrom (p : Position) (pending : Bool) : List Char → Except LexError (List Token)
  | [] => .ok []
  | c :: cs =>
    match Lexeme.first pending c cs with
    | .error fault => .error ⟨fault, p⟩
    | .ok l => do
      let rest ← tokensFrom (p.after l.spelling) (l.opensBodyNext pending)
        (cs.drop (l.spelling.length - 1))
      return l.tokens p ++ rest
termination_by cs => cs.length
decreasing_by simp only [List.length_drop, List.length_cons]; omega

def tokenize (source : String) : Except LexError (List Token) :=
  tokensFrom {} false source.toList

end Holov
