import Holov.Run

namespace Holov

variable (f : Position → Position)

def Token.relocate (t : Token) : Token :=
  { t with position := f t.position }

mutual

def Expr.relocate : Expr → Expr
  | .value t => .value (t.relocate f)
  | .function params body => .function params (relocateBlock body)
  | .call callee p args => .call callee (f p) (args.map (Token.relocate f))

def Statement.relocate : Statement → Statement
  | .definition e name p => .definition e.relocate name (f p)
  | .expression e => .expression e.relocate

def relocateBlock : List Statement → List Statement
  | [] => []
  | s :: rest => s.relocate :: relocateBlock rest

end

def ParseError.relocate : ParseError → ParseError
  | unexpected found expected => unexpected (found.relocate f) expected
  | endOfInput expected p => endOfInput expected (f p)
  | unclosedBody p => unclosedBody (f p)

def RuntimeError.relocate : RuntimeError → RuntimeError
  | unboundName name p => unboundName name (f p)
  | wrongArity name expected found p => wrongArity name expected found (f p)
  | unknownFunction name p => unknownFunction name (f p)
  | output details p => output details (f p)

def Failure.relocate : Failure → Failure
  | lexing e => lexing ⟨e.fault, f e.position⟩
  | parsing e => parsing (e.relocate f)
  | runtime e => runtime (e.relocate f)
  | output details => output details

def Routine.relocate (r : Routine) : Routine :=
  ⟨r.params, relocateBlock f r.body⟩

def Scope.relocate (s : Scope) : Scope :=
  s.mapRoutines (Routine.relocate f)

@[simp] theorem Token.relocate_kind (t : Token) : (t.relocate f).kind = t.kind := rfl

@[simp] theorem Token.relocate_text (t : Token) : (t.relocate f).text = t.text := rfl

@[simp] theorem Token.relocate_position (t : Token) : (t.relocate f).position = f t.position := rfl

theorem Token.relocate_id : Token.relocate id = id := rfl

mutual

theorem Expr.relocate_id (e : Expr) : e.relocate id = e := by
  cases e with
  | value t => rfl
  | function params body => rw [Expr.relocate, relocateBlock_id body]
  | call callee p args => rw [Expr.relocate, Token.relocate_id, List.map_id, id]

theorem Statement.relocate_id (s : Statement) : s.relocate id = s := by
  cases s with
  | definition e name p => rw [Statement.relocate, Expr.relocate_id e, id]
  | expression e => rw [Statement.relocate, Expr.relocate_id e]

theorem relocateBlock_id (b : List Statement) : relocateBlock id b = b := by
  cases b with
  | nil => rfl
  | cons s b => rw [relocateBlock, Statement.relocate_id s, relocateBlock_id b]

end

theorem Routine.relocate_id : Routine.relocate id = id := by
  funext r
  rw [relocate, relocateBlock_id, id]

theorem Scope.relocate_id (s : Scope) : s.relocate id = s := by
  rw [relocate, Routine.relocate_id, mapRoutines_id]

theorem RuntimeError.relocate_id : RuntimeError.relocate id = id := by
  funext e
  cases e <;> rfl

end Holov
