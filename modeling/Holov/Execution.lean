import Holov.Event
import Holov.Builtin
import Holov.Scope
import Holov.Sink

namespace Holov

inductive RuntimeError where
  | unboundName (name : String) (position : Position)
  | wrongArity (name : String) (expected found : Nat) (position : Position)
  | unknownFunction (name : String) (position : Position)
  | output (details : String) (position : Position)
deriving DecidableEq, Repr, Inhabited

namespace RuntimeError

def position : RuntimeError → Position
  | unboundName _ p | wrongArity _ _ _ p | unknownFunction _ p | output _ p => p

def message (e : RuntimeError) : String :=
  e.position.report <| match e with
    | unboundName name _ => "Undefined name '" ++ name ++ "'."
    | wrongArity name expected found _ =>
      "Function '" ++ name ++ "' expects " ++ expected.repr ++ " argument(s), but " ++ found.repr
        ++ " were given."
    | unknownFunction name _ => "Unknown function '" ++ name ++ "'."
    | output details _ => "Failed to write output: " ++ details ++ "."

end RuntimeError

/-- How a run ends. It is `tooDeep` if calls nest deeper than the run was allowed. -/
inductive Outcome (ε : Type) where
  | completed
  | failed (error : ε)
  | tooDeep
deriving DecidableEq, Repr, Inhabited

structure Machine where
  sink : Sink := {}
  log : Array Event := #[]
deriving Repr, Inhabited

def Machine.note (m : Machine) (e : Event) : Machine :=
  { m with log := m.log.push e }

def Machine.write (m : Machine) (text : String) : Bool × Machine :=
  let (ok, sink) := m.sink.writeText text
  (ok, { m with sink })

/-- The value of a value token: an identifier is looked up, a literal stands for itself. -/
def Scope.evaluate (scope : Scope) (t : Token) : Except RuntimeError Value :=
  let found? := if t.kind = .identifier then scope.value? t.text else Value.ofLiteral? t
  match found? with
  | some v => .ok v
  | none => .error (.unboundName t.text t.position)

inductive Callee where
  | routine (r : Routine)
  | builtin (f : Builtin)
deriving Repr, Inhabited

/-- What a name calls. Functions of the program come before built-in ones. -/
def Scope.callee? (scope : Scope) (name : String) : Option Callee :=
  match scope.routine? name with
  | some r => some (.routine r)
  | none => (Builtin.ofName? name).map .builtin

abbrev BodyRunner := Block → Scope → Machine → Outcome RuntimeError × Machine

/-- A call. The callee is found first, then the arguments are resolved, and then they are
counted. -/
def callWith (enter : BodyRunner) (scope : Scope) (callee : String) (position : Position)
    (args : List Token) (m : Machine) : Outcome RuntimeError × Machine :=
  match scope.callee? callee with
  | none => (.failed (.unknownFunction callee position), m)
  | some target =>
    match args.mapM scope.evaluate with
    | .error e => (.failed e, m)
    | .ok values =>
      match target with
      | .builtin f =>
        match (m.note (.builtinCalled callee position values.length)).write (f.output values) with
        | (true, m) => (.completed, m)
        | (false, m) => (.failed (.output m.sink.refusal position), m)
      | .routine r =>
        if r.params.length = values.length then
          -- The frame is inside of the caller's, so the body sees the names of its caller.
          enter r.body (scope.enter.defineVariables (r.params.zip values))
            (m.note (.functionCalled callee position (scope.depth + 1)))
        else (.failed (.wrongArity callee r.params.length values.length position), m)

structure Executed where
  outcome : Outcome RuntimeError
  scope : Scope
  machine : Machine
deriving Repr, Inhabited

/-- Of the expressions, only calls have an effect of their own, and a call has no value to be
defined by. -/
def executeStatement (enter : BodyRunner) (scope : Scope) (m : Machine) : Statement → Executed
  | .definition (.value t) name _ =>
    match scope.evaluate t with
    | .error e => ⟨.failed e, scope, m⟩
    | .ok v =>
      ⟨.completed, scope.defineVariable name v, m.note (.variableDefined name v scope.depth)⟩
  | .definition (.function params body) name _ =>
    ⟨.completed, scope.defineFunction name ⟨params, body⟩,
      m.note (.functionDefined name params.length scope.depth)⟩
  | .definition (.call callee _ _) name position =>
    ⟨.completed, scope, m.note (.definitionIgnored name callee position)⟩
  | .expression (.call callee position args) =>
    let (outcome, m) := callWith enter scope callee position args m
    ⟨outcome, scope, m⟩
  | .expression (.value _) | .expression (.function _ _) => ⟨.completed, scope, m⟩

def executeBlock (enter : BodyRunner) : Block → Scope → Machine → Executed
  | [], scope, m => ⟨.completed, scope, m⟩
  | s :: rest, scope, m =>
    match executeStatement enter scope m s with
    | ⟨.completed, scope, m⟩ => executeBlock enter rest scope m
    | stopped => stopped

/-- Runs a body in which calls of the program's functions may nest `depth` deep, itself counted. -/
def runBody : (depth : Nat) → BodyRunner
  | 0, _, _, m => (.tooDeep, m)
  | depth + 1, block, scope, m =>
    let r := executeBlock (runBody depth) block scope m
    (r.outcome, r.machine)

def execute (depth : Nat) (block : Block) (scope : Scope) (m : Machine) : Executed :=
  executeBlock (runBody depth) block scope m

def call (depth : Nat) (scope : Scope) (callee : String) (position : Position) (args : List Token)
    (m : Machine) : Outcome RuntimeError × Machine :=
  callWith (runBody depth) scope callee position args m

end Holov
