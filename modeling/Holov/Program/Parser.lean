import Holov.Cursor
import Holov.Program

namespace Holov

inductive Expectation where
  | statement
  | value
  | valueAfterSeparator
  | nameAfterNaming
  | functionAfterParameter
  | parameterName
deriving DecidableEq, Repr, Inhabited

def Expectation.text : Expectation → String
  | statement => "a statement"
  | value => "a value"
  | valueAfterSeparator => "a value after 'և'"
  | nameAfterNaming => "a name after 'որպես'"
  | functionAfterParameter => "'գործառույթ' after 'չափոցով'"
  | parameterName => "a parameter name"

inductive ParseError where
  | unexpected (found : Token) (expected : Expectation)
  /-- The position is that of the last token. -/
  | endOfInput (expected : Expectation) (position : Position)
  /-- The position is that of the function word. -/
  | unclosedBody (position : Position)
deriving DecidableEq, Repr, Inhabited

namespace ParseError

def position : ParseError → Position
  | unexpected found _ => found.position
  | endOfInput _ p => p
  | unclosedBody p => p

def message (e : ParseError) : String :=
  e.position.report <| match e with
    | unexpected found expected =>
      "Expected " ++ expected.text ++ ", found " ++ found.describe ++ "."
    | endOfInput expected _ => "Unexpected end of input, expected " ++ expected.text ++ "."
    | unclosedBody _ => "Function body is never closed with '»'."

end ParseError

namespace Parser

def unmet (c : Cursor Token) (expected : Expectation) : ParseError :=
  match c.peek? with
  | some t => .unexpected t expected
  -- An error at the end is reported at the last token, or at the start of an empty input.
  | none => .endOfInput expected ((c.last?.map Token.position).getD {})

def takeKind? (kind : Kind) (c : Cursor Token) : Option (c.Read Token) :=
  c.takeIf? fun t => t.kind = kind

def requireKind (kind : Kind) (expected : Expectation) (c : Cursor Token) :
    Except ParseError (c.Read Token) :=
  match takeKind? kind c with
  | some r => .ok r
  | none => .error (unmet c expected)

structure Operand where
  token : Token
  marked : Bool
deriving DecidableEq, Repr, Inhabited

def operand? (c : Cursor Token) : Option (c.Read Operand) :=
  (c.takeIf? fun t => t.kind.isValue).map fun r =>
    match takeKind? .caseEnding r.next with
    | some e => .ofLater ⟨⟨r.result, true⟩, e.next, e.shorter⟩ r.shorter
    | none => ⟨⟨r.result, false⟩, r.next, r.shorter⟩

def operand (expected : Expectation) (c : Cursor Token) : Except ParseError (c.Read Operand) :=
  match operand? c with
  | some r => .ok r
  | none => .error (unmet c expected)

structure Joined (c : Cursor Token) where
  values : List Token
  next : Cursor Token
  notLonger : next.ahead.length ≤ c.ahead.length

def joined (c : Cursor Token) : Except ParseError (Joined c) :=
  match takeKind? .separator c with
  | none => .ok ⟨[], c, Nat.le_refl _⟩
  | some s => do
    let v ← operand .valueAfterSeparator s.next
    let more ← joined v.next
    return ⟨v.result.token :: more.values, more.next, by
      have := s.shorter; have := v.shorter; have := more.notLonger; omega⟩
termination_by c.ahead.length
decreasing_by have := s.shorter; have := v.shorter; omega

def parameterName (t : Token) : Except ParseError String :=
  if t.kind = .identifier then .ok t.text else .error (.unexpected t .parameterName)

/-- How the body of a function literal is read, from cursors with less than `n` tokens ahead. The
position is that of the function word. -/
abbrev BodyReader (n : Nat) :=
  (openedAt : Position) → (c : Cursor Token) → c.ahead.length < n → Except ParseError (c.Read Block)

/-- One expression. The value that opens it is the last argument of a call that it marks, and the
last parameter of a function literal. -/
def expression (c : Cursor Token) (body : BodyReader c.ahead.length) :
    Except ParseError (c.Read Expr) := do
  let first ← operand .value c
  let rest ← joined first.next
  let values := rest.values ++ [first.result.token]
  have short : rest.next.ahead.length < c.ahead.length :=
    Nat.lt_of_le_of_lt rest.notLonger first.shorter
  if first.result.marked then
    -- The value is the object of the call that the next name makes, if there is one.
    match takeKind? .identifier rest.next with
    | some callee =>
      return .ofLater ⟨.call callee.result.text callee.result.position values, callee.next,
        callee.shorter⟩ short
    | none => return ⟨.value first.result.token, rest.next, short⟩
  else
    match takeKind? .parameter rest.next with
    | some p => do
      have short := Nat.lt_trans p.shorter short
      let word ← requireKind .function .functionAfterParameter p.next
      have short := Nat.lt_trans word.shorter short
      -- The names are looked at only where the function word is there.
      let params ← values.mapM parameterName
      let block ← body word.result.position word.next short
      return .ofLater ⟨.function params block.result, block.next, block.shorter⟩ short
    | none =>
      match operand? rest.next with
      | some arg => do
        have short := Nat.lt_trans arg.shorter short
        let more ← joined arg.next
        return ⟨.call first.result.token.text first.result.token.position
            (rest.values ++ arg.result.token :: more.values),
          more.next, Nat.lt_of_le_of_lt more.notLonger short⟩
      | none => return ⟨.value first.result.token, rest.next, short⟩

def statement (c : Cursor Token) (body : BodyReader c.ahead.length) :
    Except ParseError (c.Read Statement) := do
  let e ← expression c body
  match takeKind? .naming e.next with
  | none => return ⟨.expression e.result, e.next, e.shorter⟩
  | some as => do
    let name ← requireKind .identifier .nameAfterNaming as.next
    return ⟨.definition e.result name.result.text name.result.position, name.next,
      Nat.lt_trans name.shorter (Nat.lt_trans as.shorter e.shorter)⟩

/-- The statements of a function body, up to and including the closing `»`. -/
def body (openedAt : Position) (c : Cursor Token) : Except ParseError (c.Read Block) :=
  match c.peek? with
  | none => .error (.unclosedBody openedAt)
  | some _ =>
    match takeKind? .endFunction c with
    | some close => .ok ⟨[], close.next, close.shorter⟩
    | none => do
      let s ← statement c fun p d _ => body p d
      let more ← body openedAt s.next
      return .ofLater ⟨s.result :: more.result, more.next, more.shorter⟩ s.shorter
termination_by c.ahead.length
decreasing_by
  · assumption
  · exact s.shorter

/-- The statements of a whole program. A `»` has no body to close there. -/
def program (c : Cursor Token) : Except ParseError Block :=
  match c.peek? with
  | none => .ok []
  | some t =>
    if t.kind = .endFunction then .error (.unexpected t .statement)
    else do
      let s ← statement c fun p d _ => body p d
      let more ← program s.next
      return s.result :: more
termination_by c.ahead.length
decreasing_by exact s.shorter

end Parser

def parse (tokens : List Token) : Except ParseError Block :=
  Parser.program (.ofList tokens)

end Holov
