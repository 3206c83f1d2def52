import Holov.Position
import Holov.Word

namespace Holov

inductive Kind where
  | quote
  | truth
  | falsity
  | naming
  | function
  | identifier
  | number
  | separator
  | parameter
  | endFunction
  | caseEnding
deriving DecidableEq, Repr, Inhabited

namespace Kind

def all : List Kind :=
  [quote, truth, falsity, naming, function, identifier, number, separator, parameter, endFunction,
    caseEnding]

def name : Kind → String
  | quote => "Quote"
  | truth => "True"
  | falsity => "False"
  | naming => "As"
  | function => "Function"
  | identifier => "Identifier"
  | number => "Number"
  | separator => "Separator"
  | parameter => "Parameter"
  | endFunction => "EndFunction"
  | caseEnding => "CaseEnding"

theorem name_injective {j k : Kind} (h : j.name = k.name) : j = k := by
  cases j <;> cases k <;> revert h <;> decide

def ofName? (s : String) : Option Kind :=
  all.find? fun k => k.name == s

def isValue : Kind → Bool
  | identifier | number | truth | falsity | quote => true
  | _ => false

def ofWord (word : String) : Kind :=
  if word = Word.truth then truth
  else if word = Word.falsity then falsity
  else if word = Word.naming then naming
  else if word = Word.function then function
  else if word = Word.parameter then parameter
  else if word = Word.separator then separator
  else identifier

end Kind

structure Token where
  kind : Kind
  text : String := ""
  position : Position := {}
deriving DecidableEq, Repr, Inhabited

def Token.describe (t : Token) : String :=
  match t.kind with
  | .endFunction => "'»'"
  | .caseEnding => "a case ending"
  | .quote => "«" ++ t.text ++ "»"
  | _ => "'" ++ t.text ++ "'"

end Holov
