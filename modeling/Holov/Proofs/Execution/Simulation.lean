import Holov.Proofs.Execution.Call

namespace Holov

/-- The second execution ended as the first, with its errors as `g` says and its scope in relation
to the other. -/
structure Simulates (g : RuntimeError → RuntimeError) (R : Scope → Scope → Prop)
    (x y : Executed) : Prop where
  outcome : y.outcome = x.outcome.mapError g
  scope : R x.scope y.scope
  sink : y.machine.sink = x.machine.sink

/-- Runners that do the same with bodies related by `B`, in scopes related by `R`. -/
def RunnersSimulate (g : RuntimeError → RuntimeError) (B : Block → Block → Prop)
    (R : Scope → Scope → Prop) (enter enter' : BodyRunner) : Prop :=
  ∀ b b' s s' m m', B b b' → R s s' → m'.sink = m.sink →
    (enter' b' s' m').1 = (enter b s m).1.mapError g ∧
      (enter' b' s' m').2.sink = (enter b s m).2.sink

/-- Two calls find the same built-in function, or functions with bodies related by `B` that are
entered with scopes related by `R`. -/
inductive CalleesSimulate (B : Block → Block → Prop) (R : Scope → Scope → Prop) (s s' : Scope) :
    Option Callee → Option Callee → Prop
  | unknown : CalleesSimulate B R s s' none none
  | builtin (f : Builtin) : CalleesSimulate B R s s' (some (.builtin f)) (some (.builtin f))
  | routine {r r' : Routine} (hl : r'.params.length = r.params.length) (hb : B r.body r'.body)
      (hs : ∀ values, R (s.enter.defineVariables (r.params.zip values))
        (s'.enter.defineVariables (r'.params.zip values))) :
      CalleesSimulate B R s s' (some (.routine r)) (some (.routine r'))

structure CallErrors (g : RuntimeError → RuntimeError) (callee callee' : String)
    (p p' : Position) : Prop where
  unknown : g (.unknownFunction callee p) = .unknownFunction callee' p'
  arity : ∀ expected found, g (.wrongArity callee expected found p) =
    .wrongArity callee' expected found p'
  output : ∀ details, g (.output details p) = .output details p'

section Simulation

variable {g : RuntimeError → RuntimeError} {B : Block → Block → Prop} {R : Scope → Scope → Prop}

theorem Simulates.imp {R' : Scope → Scope → Prop} {x y : Executed} (h : Simulates g R x y)
    (hR : ∀ s s', R s s' → R' s s') : Simulates g R' x y :=
  ⟨h.outcome, hR _ _ h.scope, h.sink⟩

/-- The first parts of two executions, and then the rest. -/
theorem Simulates.andThen {x y : Executed} {next next' : Scope → Machine → Executed}
    (h : Simulates g R x y)
    (hn : ∀ s s' m m', R s s' → m'.sink = m.sink → Simulates g R (next s m) (next' s' m')) :
    Simulates g R (x.andThen next) (y.andThen next') := by
  obtain ⟨o, s, m⟩ := x
  obtain ⟨o', s', m'⟩ := y
  obtain rfl : o' = o.mapError g := h.outcome
  cases o with
  | completed => exact hn s s' m m' h.scope h.sink
  | failed e => exact h
  | tooDeep => exact h

/-- A call finds what it found before, with the function that `f` made of it. -/
theorem Scope.callee?_mapRoutines {f : Routine → Routine} (hf : ∀ r, (f r).params = r.params)
    (hB : ∀ r, B r.body (f r).body) (s : Scope) (name : String) :
    CalleesSimulate B (fun s s' => s' = s.mapRoutines f) s (s.mapRoutines f) (s.callee? name)
      ((s.mapRoutines f).callee? name) := by
  unfold callee?
  rw [routine?_mapRoutines]
  cases s.routine? name with
  | none =>
    cases Builtin.ofName? name with
    | none => exact .unknown
    | some b => exact .builtin b
  | some r =>
    refine .routine (congrArg List.length (hf r)) (hB r) fun values => ?_
    rw [hf r]
    exact (s.enter.defineVariables_mapRoutines f _).symm

/-- Two calls that find the same and resolve their arguments to the same values end alike. -/
theorem callWith_simulates {enter enter' : BodyRunner} (he : RunnersSimulate g B R enter enter')
    {s s' : Scope} {callee callee' : String} {p p' : Position} {args args' : List Token}
    {m m' : Machine} (hg : CallErrors g callee callee' p p')
    (hc : CalleesSimulate B R s s' (s.callee? callee) (s'.callee? callee'))
    (ha : args'.mapM s'.evaluate = (args.mapM s.evaluate).mapError g) (hm : m'.sink = m.sink) :
    (callWith enter' s' callee' p' args' m').1 =
        (callWith enter s callee p args m).1.mapError g ∧
      (callWith enter' s' callee' p' args' m').2.sink =
        (callWith enter s callee p args m).2.sink := by
  generalize hf : s.callee? callee = found at hc
  generalize hf' : s'.callee? callee' = found' at hc
  cases hc with
  | unknown =>
    rw [callWith_unknown hf, callWith_unknown hf', ← hg.unknown]
    exact ⟨rfl, hm⟩
  | builtin f =>
    cases hv : args.mapM s.evaluate with
    | error e =>
      rw [hv] at ha
      rw [callWith_argument hf hv, callWith_argument hf' ha]
      exact ⟨rfl, hm⟩
    | ok values =>
      rw [hv] at ha
      rw [callWith_builtin hf hv, callWith_builtin hf' ha, Machine.callBuiltin_eq,
        Machine.callBuiltin_eq, hm, ← hg.output]
      refine ⟨?_, rfl⟩
      dsimp only
      split <;> rfl
  | @routine r r' hl hb hs =>
    cases hv : args.mapM s.evaluate with
    | error e =>
      rw [hv] at ha
      rw [callWith_argument hf hv, callWith_argument hf' ha]
      exact ⟨rfl, hm⟩
    | ok values =>
      rw [hv] at ha
      by_cases hn : r.params.length = values.length
      · rw [callWith_routine hf hv hn, callWith_routine hf' ha (hl.trans hn)]
        exact he _ _ _ _ _ _ hb (hs values) hm
      · rw [callWith_arity hf hv hn, callWith_arity hf' ha (hl ▸ hn), hl, ← hg.arity]
        exact ⟨rfl, hm⟩

/-- If blocks correspond whenever the bodies that they call do, then they correspond. -/
theorem execute_simulates
    (hb : ∀ enter enter', RunnersSimulate g B R enter enter' → ∀ b b' s s' m m',
      B b b' → R s s' → m'.sink = m.sink →
        Simulates g R (executeBlock enter b s m) (executeBlock enter' b' s' m'))
    (depth : Nat) {b b' : Block} {s s' : Scope} {m m' : Machine} (hB : B b b') (hR : R s s')
    (hm : m'.sink = m.sink) :
    Simulates g R (execute depth b s m) (execute depth b' s' m') := by
  -- The bodies that are called correspond by induction on the depth that is left for them.
  have hrun : RunnersSimulate g B R (runBody depth) (runBody depth) := by
    induction depth with
    | zero => exact fun b b' s s' m m' _ _ hm => ⟨rfl, hm⟩
    | succ depth ih =>
      intro b b' s s' m m' hB hR hm
      have hx := hb _ _ ih b b' s s' m m' hB hR hm
      exact ⟨hx.outcome, hx.sink⟩
  exact hb _ _ hrun b b' s s' m m' hB hR hm

variable {b b' : Block} {s s' : Scope} {m m' : Machine}
  (h : ∀ depth, Simulates g R (execute depth b s m) (execute depth b' s' m'))
include h

theorem ExecutesTo.simulated {x : Executed} (hx : ExecutesTo b s m x) :
    ∃ y, ExecutesTo b' s' m' y ∧ Simulates g R x y := by
  obtain ⟨ho, depth, rfl⟩ := hx
  refine ⟨execute depth b' s' m', ⟨?_, depth, rfl⟩, h depth⟩
  rw [(h depth).outcome]
  exact mt Outcome.mapError_eq_tooDeep.mp ho

theorem ExecutesTo.simulating {y : Executed} (hy : ExecutesTo b' s' m' y) :
    ∃ x, ExecutesTo b s m x ∧ Simulates g R x y := by
  obtain ⟨ho, depth, rfl⟩ := hy
  rw [(h depth).outcome] at ho
  exact ⟨execute depth b s m, ⟨mt Outcome.mapError_eq_tooDeep.mpr ho, depth, rfl⟩, h depth⟩

end Simulation

end Holov
