import Holov.Proofs.Execution.Call

namespace Holov

mutual

def Expr.parts : Expr → List Expr
  | .value t => [.value t]
  | .function params body => .function params body :: partsOf body
  | .call callee p args => [.call callee p args]

def Statement.parts : Statement → List Expr
  | .definition e _ _ => e.parts
  | .expression e => e.parts

/-- The expressions of a block, at every depth. -/
def partsOf : List Statement → List Expr
  | [] => []
  | s :: rest => s.parts ++ partsOf rest

end

mutual

def Expr.statements : Expr → List Statement
  | .function _ body => statementsOf body
  | .value _ => []
  | .call _ _ _ => []

def Statement.statements : Statement → List Statement
  | .definition e name p => .definition e name p :: e.statements
  | .expression e => .expression e :: e.statements

/-- The statements of a block, at every depth. -/
def statementsOf : List Statement → List Statement
  | [] => []
  | s :: rest => s.statements ++ statementsOf rest

end

def Expr.tokens : Expr → List Token
  | .value t => [t]
  | .function _ _ => []
  | .call _ _ args => args

theorem Expr.self_mem_parts (e : Expr) : e ∈ e.parts := by
  cases e <;> simp [parts]

variable {P : Expr → Prop}

theorem forall_partsOf_cons {s : Statement} {b : Block} :
    (∀ x ∈ partsOf (s :: b), P x) ↔ (∀ x ∈ s.parts, P x) ∧ ∀ x ∈ partsOf b, P x := by
  rw [partsOf, List.forall_mem_append]

/-- The functions that can be called in a scope consist of expressions in `P`. -/
def Scope.Within (P : Expr → Prop) (s : Scope) : Prop :=
  ∀ name r, s.routine? name = some r → ∀ x ∈ partsOf r.body, P x

theorem Scope.within_empty : Scope.Within P {} := by
  intro name r h
  cases h

theorem Scope.routine?_defineVariables (s : Scope) (pairs : List (String × Value))
    (name : String) : (s.defineVariables pairs).routine? name = s.routine? name := by
  induction pairs generalizing s with
  | nil => rfl
  | cons p pairs ih => exact ih (s.defineVariable p.1 p.2)

theorem Scope.Within.enter {s : Scope} (h : s.Within P) (pairs : List (String × Value)) :
    (s.enter.defineVariables pairs).Within P := by
  intro name r hr
  rw [routine?_defineVariables, routine?_enter] at hr
  exact h name r hr

theorem Scope.Within.defineFunction {s : Scope} (h : s.Within P) (name : String) {r : Routine}
    (hr : ∀ x ∈ partsOf r.body, P x) : (s.defineFunction name r).Within P := by
  intro other r' hr'
  rw [routine?_defineFunction] at hr'
  split at hr'
  · cases hr'
    exact hr
  · exact h other r' hr'

/-- A statement adds no function to the scope but one that it writes out. -/
theorem executeStatement_within {scope : Scope} {s : Statement} (hs : ∀ x ∈ s.parts, P x)
    (h : scope.Within P) (enter : BodyRunner) (m : Machine) :
    (executeStatement enter scope m s).scope.Within P := by
  cases s with
  | definition e name p =>
    cases e with
    | value t =>
      rw [executeStatement]
      cases scope.evaluate t with
      | error e => exact h
      | ok v => exact h
    | function params body =>
      apply h.defineFunction name
      intro x hx
      exact hs x (List.mem_cons_of_mem _ hx)
    | call callee q args => exact h
  | expression e => cases e <;> exact h

theorem Scope.evaluate_eq_error {scope : Scope} {t : Token} {e : RuntimeError}
    (h : scope.evaluate t = .error e) :
    e = .unboundName t.text t.position ∧ (t.kind = .identifier ∨ Value.ofLiteral? t = none) := by
  unfold evaluate at h
  generalize hf : (if t.kind = .identifier then scope.value? t.text else Value.ofLiteral? t) =
    found? at h
  cases found? with
  | some v => cases h
  | none =>
    cases h
    refine ⟨rfl, ?_⟩
    by_cases hk : t.kind = .identifier
    · exact .inl hk
    · rw [if_neg hk] at hf
      exact .inr hf

/-- Arguments are evaluated from the left, up to the first that has no value. -/
theorem Scope.evaluateAll_cons (scope : Scope) (t : Token) (args : List Token) :
    (t :: args).mapM scope.evaluate =
      match scope.evaluate t, args.mapM scope.evaluate with
      | .error e, _ => .error e
      | .ok _, .error e => .error e
      | .ok v, .ok values => .ok (v :: values) := by
  rw [List.mapM_cons]
  cases scope.evaluate t with
  | error e => rfl
  | ok v => cases args.mapM scope.evaluate <;> rfl

theorem Scope.evaluateAll_eq_error {scope : Scope} {args : List Token} {e : RuntimeError}
    (h : args.mapM scope.evaluate = .error e) : ∃ t ∈ args, scope.evaluate t = .error e := by
  induction args with
  | nil => cases h
  | cons t args ih =>
    rw [evaluateAll_cons] at h
    split at h
    · rename_i ht
      cases h
      exact ⟨t, by simp, ht⟩
    · rename_i ha
      cases h
      obtain ⟨u, hu, he⟩ := ih ha
      exact ⟨u, List.mem_cons_of_mem _ hu, he⟩
    · cases h

theorem Scope.length_evaluateAll {scope : Scope} {args : List Token} {values : List Value}
    (h : args.mapM scope.evaluate = .ok values) : values.length = args.length := by
  induction args generalizing values with
  | nil =>
    cases h
    rfl
  | cons t args ih =>
    rw [evaluateAll_cons] at h
    split at h
    · cases h
    · cases h
    · rename_i ha
      cases h
      rw [List.length_cons, List.length_cons, ih ha]

/-- The errors that an expression can raise itself, in some scope and on some sink. -/
inductive Expr.Raises : Expr → RuntimeError → Prop
  | unbound {x : Expr} {t : Token} (hm : t ∈ x.tokens)
      (ht : t.kind = .identifier ∨ Value.ofLiteral? t = none) :
      Raises x (.unboundName t.text t.position)
  | unknown {callee : String} {p : Position} {args : List Token}
      (hb : Builtin.ofName? callee = none) :
      Raises (.call callee p args) (.unknownFunction callee p)
  | arity {callee : String} {p : Position} {args : List Token} {expected : Nat}
      (hl : expected ≠ args.length) :
      Raises (.call callee p args) (.wrongArity callee expected args.length p)
  | output {f : Builtin} {p : Position} {args : List Token} (details : String) :
      Raises (.call f.name p args) (.output details p)

def RaisedWithin (P : Expr → Prop) (o : Outcome RuntimeError) : Prop :=
  ∀ e, o = .failed e → ∃ x, P x ∧ x.Raises e

theorem raisedWithin_failed {x : Expr} {e : RuntimeError} (hx : P x) (h : x.Raises e) :
    RaisedWithin P (.failed e) := by
  intro e' he
  cases he
  exact ⟨x, hx, h⟩

def RunsWithin (P : Expr → Prop) (enter : BodyRunner) : Prop :=
  ∀ b s m, (∀ x ∈ partsOf b, P x) → s.Within P → RaisedWithin P (enter b s m).1

theorem Machine.callBuiltin_raises {m : Machine} {f : Builtin} {callee : String} {p : Position}
    {values : List Value} {args : List Token} (hf : f.name = callee)
    (hP : P (.call callee p args)) : RaisedWithin P (m.callBuiltin f callee p values).1 := by
  rw [callBuiltin_eq]
  subst hf
  split
  · exact fun e he => by cases he
  · exact raisedWithin_failed hP (.output _)

section Runners

variable {enter : BodyRunner} (he : RunsWithin P enter)
include he

theorem callWith_raises {scope : Scope} {callee : String} {p : Position} {args : List Token}
    (hP : P (.call callee p args)) (hs : scope.Within P) (m : Machine) :
    RaisedWithin P (callWith enter scope callee p args m).1 := by
  cases callCase scope callee args with
  | unknown hc =>
    rw [callWith_unknown hc]
    refine raisedWithin_failed hP (.unknown ?_)
    rw [Scope.callee?] at hc
    split at hc
    · cases hc
    · exact Option.map_eq_none_iff.mp hc
  | argument hc ha =>
    rw [callWith_argument hc ha]
    obtain ⟨t, ht, hv⟩ := Scope.evaluateAll_eq_error ha
    obtain ⟨rfl, hk⟩ := Scope.evaluate_eq_error hv
    exact raisedWithin_failed hP (.unbound ht hk)
  | builtin hc ha =>
    rw [callWith_builtin hc ha]
    exact Machine.callBuiltin_raises (Builtin.name_of_ofName? (Scope.callee?_builtin hc).2) hP
  | arity hc ha hl =>
    rw [callWith_arity hc ha hl]
    rw [Scope.length_evaluateAll ha] at hl ⊢
    exact raisedWithin_failed hP (.arity hl)
  | routine hc ha hl =>
    rw [callWith_routine hc ha hl]
    exact he _ _ _ (hs _ _ (Scope.callee?_routine.mp hc)) (hs.enter _)

theorem executeStatement_raises {scope : Scope} {s : Statement} (hst : ∀ x ∈ s.parts, P x)
    (hs : scope.Within P) (m : Machine) :
    RaisedWithin P (executeStatement enter scope m s).outcome := by
  cases s with
  | definition e name p =>
    cases e with
    | value t =>
      rw [executeStatement]
      cases hv : scope.evaluate t with
      | error e =>
        obtain ⟨rfl, hk⟩ := Scope.evaluate_eq_error hv
        exact raisedWithin_failed (hst _ (Expr.self_mem_parts _)) (.unbound (.head _) hk)
      | ok v => exact fun e he => by cases he
    | function params body => exact fun e he => by cases he
    | call callee q args => exact fun e he => by cases he
  | expression e =>
    cases e with
    | value t => exact fun e he => by cases he
    | function params body => exact fun e he => by cases he
    | call callee p args => exact callWith_raises he (hst _ (Expr.self_mem_parts _)) hs m

theorem executeBlock_raises {b : Block} {scope : Scope} (hb : ∀ x ∈ partsOf b, P x)
    (hs : scope.Within P) (m : Machine) :
    RaisedWithin P (executeBlock enter b scope m).outcome := by
  induction b generalizing scope m with
  | nil => exact fun e he => by cases he
  | cons s b ih =>
    obtain ⟨hst, hb⟩ := forall_partsOf_cons.mp hb
    rw [executeBlock_cons]
    -- A statement can bring a function into the scope, but only one of its own parts.
    have hr := executeStatement_raises he hst hs m
    have hw := executeStatement_within hst hs enter m
    rcases hx : executeStatement enter scope m s with ⟨_ | e | _, scope', m'⟩
    · rw [hx] at hw
      exact ih hb hw m'
    · rw [hx] at hr
      exact hr
    · exact fun e he => by cases he

end Runners

theorem runBody_raises (P : Expr → Prop) (depth : Nat) : RunsWithin P (runBody depth) := by
  induction depth with
  | zero => exact fun b s m _ _ e he => by cases he
  | succ depth ih => exact fun b s m hb hs => executeBlock_raises ih hb hs m

/-- An error of an execution is raised by an expression of the block, or of a function in its
scope. -/
theorem execute_raises {b : Block} {scope : Scope} (hb : ∀ x ∈ partsOf b, P x)
    (hs : scope.Within P) (depth : Nat) (m : Machine) :
    RaisedWithin P (execute depth b scope m).outcome :=
  executeBlock_raises (runBody_raises P depth) hb hs m

end Holov
