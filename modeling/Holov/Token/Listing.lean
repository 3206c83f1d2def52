import Holov.Token
import Holov.Text.Quoted

namespace Holov

def Token.listingLine (t : Token) : String :=
  t.kind.name ++ " " ++ quotedText t.text ++ " " ++ t.position.line.repr ++ ":"
    ++ t.position.column.repr ++ "\n"

def listTokens (ts : List Token) : String :=
  String.join (ts.map Token.listingLine)

end Holov
