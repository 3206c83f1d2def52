import Holov.Value

namespace Holov

inductive Event where
  | lexed (count : Nat)
  | tokenized (count : Nat)
  | parsed (statements : Nat)
  | variableDefined (name : String) (value : Value) (depth : Nat)
  | functionDefined (name : String) (params : Nat) (depth : Nat)
  /-- A definition by a call, which has no value; the position is that of the name. -/
  | definitionIgnored (name callee : String) (position : Position)
  | functionCalled (callee : String) (position : Position) (depth : Nat)
  | builtinCalled (callee : String) (position : Position) (args : Nat)
deriving DecidableEq, Repr, Inhabited

namespace Event

inductive Level where
  | trace
  | debug
  | warn
deriving DecidableEq, Repr, Inhabited

def Level.name : Level → String
  | trace => "TRACE"
  | debug => "DEBUG"
  | warn => "WARN"

def level : Event → Level
  | lexed _ | variableDefined .. | functionDefined .. => .trace
  | tokenized _ | parsed _ | functionCalled .. | builtinCalled .. => .debug
  | definitionIgnored .. => .warn

def message : Event → String
  | lexed _ => "lexing finished"
  | tokenized _ => "tokenized source"
  | parsed _ => "parsed program"
  | variableDefined .. => "defining variable"
  | functionDefined .. => "defining function"
  | definitionIgnored .. => "calls produce no value; definition ignored"
  | functionCalled .. => "calling function"
  | builtinCalled .. => "calling native function"

def fields : Event → List (String × String)
  | lexed count | tokenized count => [("count", count.repr)]
  | parsed statements => [("statements", statements.repr)]
  | variableDefined name value depth =>
    [("name", name), ("value", value.display), ("depth", depth.repr)]
  | functionDefined name params depth =>
    [("name", name), ("params", params.repr), ("depth", depth.repr)]
  | definitionIgnored name callee position =>
    [("name", name), ("callee", callee), ("position", position.text)]
  | functionCalled callee position depth =>
    [("callee", callee), ("position", position.text), ("depth", depth.repr)]
  | builtinCalled callee position args =>
    [("callee", callee), ("position", position.text), ("args", args.repr)]

end Event

end Holov
