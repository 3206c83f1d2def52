import Holov.Proofs.Execution

namespace Holov

/-- How a call goes, by what its callee and its arguments are found to be. -/
inductive CallCase (scope : Scope) (callee : String) (args : List Token) : Prop
  | unknown (hc : scope.callee? callee = none)
  | argument {target : Callee} {e : RuntimeError} (hc : scope.callee? callee = some target)
      (ha : args.mapM scope.evaluate = .error e)
  | builtin {f : Builtin} {values : List Value} (hc : scope.callee? callee = some (.builtin f))
      (ha : args.mapM scope.evaluate = .ok values)
  | arity {r : Routine} {values : List Value} (hc : scope.callee? callee = some (.routine r))
      (ha : args.mapM scope.evaluate = .ok values) (hl : r.params.length ≠ values.length)
  | routine {r : Routine} {values : List Value} (hc : scope.callee? callee = some (.routine r))
      (ha : args.mapM scope.evaluate = .ok values) (hl : r.params.length = values.length)

theorem callCase (scope : Scope) (callee : String) (args : List Token) :
    CallCase scope callee args := by
  cases hc : scope.callee? callee with
  | none => exact .unknown hc
  | some target =>
    cases ha : args.mapM scope.evaluate with
    | error e => exact .argument hc ha
    | ok values =>
      cases target with
      | builtin f => exact .builtin hc ha
      | routine r =>
        by_cases hl : r.params.length = values.length
        · exact .routine hc ha hl
        · exact .arity hc ha hl

def Machine.callBuiltin (m : Machine) (f : Builtin) (callee : String) (p : Position)
    (values : List Value) : Outcome RuntimeError × Machine :=
  match (m.note (.builtinCalled callee p values.length)).write (f.output values) with
  | (true, m) => (.completed, m)
  | (false, m) => (.failed (.output m.sink.refusal p), m)

section Equations

variable {enter : BodyRunner} {scope : Scope} {callee : String} {p : Position} {args : List Token}
  {m : Machine}

theorem callWith_unknown (hc : scope.callee? callee = none) :
    callWith enter scope callee p args m = (.failed (.unknownFunction callee p), m) := by
  rw [callWith, hc]

theorem callWith_argument {target : Callee} {e : RuntimeError}
    (hc : scope.callee? callee = some target) (ha : args.mapM scope.evaluate = .error e) :
    callWith enter scope callee p args m = (.failed e, m) := by
  rw [callWith, hc, ha]

theorem callWith_builtin {f : Builtin} {values : List Value}
    (hc : scope.callee? callee = some (.builtin f)) (ha : args.mapM scope.evaluate = .ok values) :
    callWith enter scope callee p args m = m.callBuiltin f callee p values := by
  rw [callWith, hc, ha]
  rfl

theorem callWith_arity {r : Routine} {values : List Value}
    (hc : scope.callee? callee = some (.routine r)) (ha : args.mapM scope.evaluate = .ok values)
    (hl : r.params.length ≠ values.length) :
    callWith enter scope callee p args m =
      (.failed (.wrongArity callee r.params.length values.length p), m) := by
  rw [callWith, hc, ha]
  exact if_neg hl

theorem callWith_routine {r : Routine} {values : List Value}
    (hc : scope.callee? callee = some (.routine r)) (ha : args.mapM scope.evaluate = .ok values)
    (hl : r.params.length = values.length) :
    callWith enter scope callee p args m =
      enter r.body (scope.enter.defineVariables (r.params.zip values))
        (m.note (.functionCalled callee p (scope.depth + 1))) := by
  rw [callWith, hc, ha]
  exact if_pos hl

theorem executeStatement_call :
    executeStatement enter scope m (.expression (.call callee p args)) =
      ⟨(callWith enter scope callee p args m).1, scope, (callWith enter scope callee p args m).2⟩ :=
  rfl

end Equations

/-- What a call of a built-in function does depends on the sink alone. -/
theorem Machine.callBuiltin_eq (m : Machine) (f : Builtin) (callee : String) (p : Position)
    (values : List Value) :
    m.callBuiltin f callee p values =
      (if (m.sink.writeText (f.output values)).1 then .completed
        else .failed (.output m.sink.refusal p),
      ⟨(m.sink.writeText (f.output values)).2,
        m.log.push (.builtinCalled callee p values.length)⟩) := by
  unfold callBuiltin write note
  rcases hw : m.sink.writeText (f.output values) with ⟨ok, sink⟩
  have hr : sink.refusal = m.sink.refusal := by
    have h := congrArg (fun x => x.2.refusal) hw
    exact h.symm
  cases ok with
  | true => rfl
  | false => simp [hr]

theorem Scope.callee?_builtin {scope : Scope} {callee : String} {f : Builtin}
    (h : scope.callee? callee = some (.builtin f)) :
    scope.routine? callee = none ∧ Builtin.ofName? callee = some f := by
  unfold callee? at h
  split at h
  · cases h
  · rename_i hr
    obtain ⟨g, hg, hf⟩ := Option.map_eq_some_iff.mp h
    cases hf
    exact ⟨hr, hg⟩

theorem Scope.callee?_routine {scope : Scope} {callee : String} {r : Routine} :
    scope.callee? callee = some (.routine r) ↔ scope.routine? callee = some r := by
  unfold callee?
  split
  · rename_i r' hr
    simp [hr]
  · rename_i hr
    simp [hr]

/-- A built-in function is called by its name. -/
theorem Builtin.name_of_ofName? {name : String} {f : Builtin} (h : ofName? name = some f) :
    f.name = name := by
  simpa using List.find?_some h

end Holov
