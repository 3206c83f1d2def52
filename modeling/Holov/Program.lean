import Holov.Token

namespace Holov

mutual

inductive Expr where
  | value (token : Token)
  /-- A function literal with its parameters in binding order. -/
  | function (params : List String) (body : List Statement)
  /-- A call; the position is that of the callee. -/
  | call (callee : String) (position : Position) (args : List Token)

inductive Statement where
  /-- A definition; the position is that of the name. -/
  | definition (expr : Expr) (name : String) (position : Position)
  | expression (expr : Expr)

end

deriving instance Repr for Expr, Statement
deriving instance Inhabited for Expr
deriving instance Inhabited for Statement

abbrev Block := List Statement

end Holov
