import Holov.Execution
import Holov.Program.Listing
import Holov.Program.Parser
import Holov.Token.Listing
import Holov.Token.Lexer

namespace Holov

inductive Failure where
  | lexing (error : LexError)
  | parsing (error : ParseError)
  | runtime (error : RuntimeError)
  /-- Output outside of the program's own calls was refused. -/
  | output (details : String)
deriving DecidableEq, Repr, Inhabited

namespace Failure

def source : Failure → String
  | lexing e => e.message
  | parsing e => e.message
  | runtime e => e.message
  | output details => details

def position? : Failure → Option Position
  | lexing e => some e.position
  | parsing e => some e.position
  | runtime e => some e.position
  | output _ => none

def message (f : Failure) : String :=
  match f with
  | lexing _ => "Lexing failed. " ++ f.source
  | parsing _ => "Parsing failed. " ++ f.source
  | runtime _ => "Execution failed. " ++ f.source
  | output _ => "Could not write output: " ++ f.source ++ "."

end Failure

def compile (source : String) : Except Failure Block := do
  let tokens ← (tokenize source).mapError .lexing
  (parse tokens).mapError .parsing

def Machine.list (m : Machine) (listing : Bool) (text : Unit → String) : Bool × Machine :=
  if listing then m.write (text ()) else (true, m)

/-- Runs a source text from an empty scope, with calls nested at most `depth` deep. With `listing`
the tokens and the statements are written out in front. Nothing is executed unless all of the text
is lexed and parsed. -/
def run (listing : Bool) (depth : Nat) (source : String) (m : Machine) :
    Outcome Failure × Machine :=
  match tokenize source with
  | .error e => (.failed (.lexing e), m)
  | .ok tokens =>
    let m := (m.note (.lexed tokens.length)).note (.tokenized tokens.length)
    match m.list listing (fun _ => listTokens tokens) with
    | (false, m) => (.failed (.output m.sink.refusal), m)
    | (true, m) =>
      match parse tokens with
      | .error e => (.failed (.parsing e), m)
      | .ok program =>
        let m := m.note (.parsed program.length)
        match m.list listing (fun _ => listProgram program) with
        | (false, m) => (.failed (.output m.sink.refusal), m)
        | (true, m) =>
          match execute depth program {} m with
          | ⟨.completed, _, m⟩ => (.completed, m)
          | ⟨.failed e, _, m⟩ => (.failed (.runtime e), m)
          | ⟨.tooDeep, _, m⟩ => (.tooDeep, m)

end Holov
