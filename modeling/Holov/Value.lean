import Holov.Number.Shortest
import Holov.Token

namespace Holov

inductive Value where
  | boolean (b : Bool)
  | number (n : Number)
  | text (s : String)
deriving DecidableEq, Repr, Inhabited

namespace Value

/-- The value of a literal token. Tokens of other kinds, and number tokens that do not write a
number, have none. -/
def ofLiteral? (t : Token) : Option Value :=
  match t.kind with
  | .truth => some (boolean true)
  | .falsity => some (boolean false)
  | .number => (Number.read? t.text).map number
  | .quote => some (text t.text)
  | _ => none

def display : Value → String
  | boolean true => Word.truth
  | boolean false => Word.falsity
  | number n => n.text
  | text s => s

end Value

end Holov
