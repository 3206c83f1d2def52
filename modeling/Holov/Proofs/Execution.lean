import Holov.Run

namespace Holov

def Outcome.mapError {ε ε' : Type} (g : ε → ε') : Outcome ε → Outcome ε'
  | completed => completed
  | failed e => failed (g e)
  | tooDeep => tooDeep

theorem Outcome.mapError_eq_tooDeep {ε ε' : Type} {g : ε → ε'} {o : Outcome ε} :
    o.mapError g = .tooDeep ↔ o = .tooDeep := by
  cases o <;> simp [mapError]

theorem Outcome.mapError_id {ε : Type} (o : Outcome ε) : o.mapError id = o := by
  cases o <;> rfl

def Executed.andThen (r : Executed) (next : Scope → Machine → Executed) : Executed :=
  match r.outcome with
  | .completed => next r.scope r.machine
  | _ => r

theorem Executed.andThen_completed (s : Scope) (m : Machine) (next : Scope → Machine → Executed) :
    andThen ⟨.completed, s, m⟩ next = next s m := rfl

theorem Executed.andThen_of_ne {r : Executed} (h : r.outcome ≠ .completed)
    (next : Scope → Machine → Executed) : r.andThen next = r := by
  unfold andThen
  split
  · rename_i ho
    exact absurd ho h
  · rfl

theorem executeBlock_cons (enter : BodyRunner) (s : Statement) (rest : Block) (scope : Scope)
    (m : Machine) :
    executeBlock enter (s :: rest) scope m =
      (executeStatement enter scope m s).andThen (executeBlock enter rest) := by
  rw [executeBlock]
  obtain ⟨outcome, scope', m'⟩ := executeStatement enter scope m s
  cases outcome <;> rfl

theorem Executed.andThen_assoc (r : Executed) (f g : Scope → Machine → Executed) :
    (r.andThen f).andThen g = r.andThen fun s m => (f s m).andThen g := by
  obtain ⟨outcome, scope, m⟩ := r
  cases outcome <;> rfl

/-- A block in two parts is executed one part after the other. -/
theorem executeBlock_append (enter : BodyRunner) (a b : Block) (scope : Scope) (m : Machine) :
    executeBlock enter (a ++ b) scope m =
      (executeBlock enter a scope m).andThen (executeBlock enter b) := by
  induction a generalizing scope m with
  | nil => rfl
  | cons s a ih =>
    rw [List.cons_append, executeBlock_cons, executeBlock_cons, Executed.andThen_assoc]
    congr 1
    funext s' m'
    exact ih s' m'

/-- `enter'` runs bodies as `enter` does wherever that has enough depth. -/
def Extends (enter' enter : BodyRunner) : Prop :=
  ∀ b s m, (enter b s m).1 ≠ .tooDeep → enter' b s m = enter b s m

section Runners

variable {enter' enter : BodyRunner} (h : Extends enter' enter)
include h

theorem callWith_of_extends {scope : Scope} {callee : String} {position : Position}
    {args : List Token} {m : Machine}
    (hd : (callWith enter scope callee position args m).1 ≠ .tooDeep) :
    callWith enter' scope callee position args m = callWith enter scope callee position args m := by
  unfold callWith at hd ⊢
  cases hc : scope.callee? callee with
  | none => rfl
  | some target =>
    cases ha : args.mapM scope.evaluate with
    | error e => rfl
    | ok values =>
      cases target with
      | builtin f => rfl
      | routine r =>
        -- This is the one place where a body is run.
        simp only [hc, ha] at hd ⊢
        split
        · rename_i hl
          rw [if_pos hl] at hd
          exact h _ _ _ hd
        · rfl

theorem executeStatement_of_extends {scope : Scope} {m : Machine} {s : Statement}
    (hd : (executeStatement enter scope m s).outcome ≠ .tooDeep) :
    executeStatement enter' scope m s = executeStatement enter scope m s := by
  unfold executeStatement at hd ⊢
  split
  · rfl
  · rfl
  · rfl
  · rw [callWith_of_extends h hd]
  · rfl
  · rfl

theorem executeBlock_of_extends {b : Block} {scope : Scope} {m : Machine}
    (hd : (executeBlock enter b scope m).outcome ≠ .tooDeep) :
    executeBlock enter' b scope m = executeBlock enter b scope m := by
  induction b generalizing scope m with
  | nil => rfl
  | cons s rest ih =>
    rw [executeBlock_cons] at hd ⊢
    rw [executeBlock_cons]
    have hs : (executeStatement enter scope m s).outcome ≠ .tooDeep := by
      intro ho
      simp [Executed.andThen, ho] at hd
    rw [executeStatement_of_extends h hs]
    unfold Executed.andThen at hd ⊢
    split
    · rename_i ho
      rw [ho] at hd
      exact ih hd
    · rfl

end Runners

theorem runBody_extends_succ (depth : Nat) : Extends (runBody (depth + 1)) (runBody depth) := by
  induction depth with
  | zero =>
    intro b s m hd
    exact absurd rfl hd
  | succ depth ih =>
    intro b s m hd
    change (executeBlock (runBody depth) b s m).outcome ≠ .tooDeep at hd
    rw [runBody, runBody, executeBlock_of_extends ih hd]

theorem runBody_extends {depth depth' : Nat} (hle : depth ≤ depth') :
    Extends (runBody depth') (runBody depth) := by
  induction hle with
  | refl => exact fun _ _ _ _ => rfl
  | step hle ih =>
    intro b s m hd
    rw [runBody_extends_succ _ b s m (by rwa [ih b s m hd]), ih b s m hd]

theorem execute_of_le {depth depth' : Nat} (hle : depth ≤ depth') {b : Block} {scope : Scope}
    {m : Machine} (hd : (execute depth b scope m).outcome ≠ .tooDeep) :
    execute depth' b scope m = execute depth b scope m :=
  executeBlock_of_extends (runBody_extends hle) hd

/-- The block ends with the state `r`, with enough depth. -/
def ExecutesTo (b : Block) (scope : Scope) (m : Machine) (r : Executed) : Prop :=
  r.outcome ≠ .tooDeep ∧ ∃ depth, execute depth b scope m = r

def RunsTo (listing : Bool) (source : String) (m : Machine) (r : Outcome Failure × Machine) : Prop :=
  r.1 ≠ .tooDeep ∧ ∃ depth, run listing depth source m = r

theorem ExecutesTo.unique {b : Block} {scope : Scope} {m : Machine} {r r' : Executed}
    (h : ExecutesTo b scope m r) (h' : ExecutesTo b scope m r') : r = r' := by
  obtain ⟨hr, d, rfl⟩ := h
  obtain ⟨hr', d', rfl⟩ := h'
  rcases Nat.le_total d d' with hle | hle
  · exact (execute_of_le hle hr).symm
  · exact execute_of_le hle hr'

theorem execute_append (depth : Nat) (a b : Block) (scope : Scope) (m : Machine) :
    execute depth (a ++ b) scope m = (execute depth a scope m).andThen (execute depth b) :=
  executeBlock_append (runBody depth) a b scope m

theorem execute_eq_of_le {depth depth' : Nat} (hle : depth ≤ depth') {b : Block} {scope : Scope}
    {m : Machine} {r : Executed} (hr : r.outcome ≠ .tooDeep) (h : execute depth b scope m = r) :
    execute depth' b scope m = r := by
  rw [← h] at hr ⊢
  exact execute_of_le hle hr

/-- Two blocks are executed one after the other in one scope and on one machine. They end with
the state `r`: that of the first one if it fails, and otherwise that of the second. -/
def ExecuteInTurn (a b : Block) (scope : Scope) (m : Machine) (r : Executed) : Prop :=
  (ExecutesTo a scope m r ∧ r.outcome ≠ .completed) ∨
    ∃ scope' m', ExecutesTo a scope m ⟨.completed, scope', m'⟩ ∧ ExecutesTo b scope' m' r

theorem executesTo_append_iff {a b : Block} {scope : Scope} {m : Machine} {r : Executed} :
    ExecutesTo (a ++ b) scope m r ↔ ExecuteInTurn a b scope m r := by
  constructor
  · rintro ⟨hr, depth, rfl⟩
    rw [execute_append] at hr ⊢
    rcases ha : execute depth a scope m with ⟨_ | e | _, s, m'⟩
    · rw [ha] at hr
      exact .inr ⟨s, m', ⟨by simp, depth, ha⟩, hr, depth, rfl⟩
    · rw [Executed.andThen_of_ne (by simp)]
      exact .inl ⟨⟨by simp, depth, ha⟩, by simp⟩
    · rw [ha] at hr
      exact absurd rfl hr
  · rintro (⟨⟨hr, depth, ha⟩, hc⟩ | ⟨s, m', ⟨-, d₁, ha⟩, hr, d₂, hb⟩)
    · exact ⟨hr, depth, by rw [execute_append, ha, Executed.andThen_of_ne hc]⟩
    · -- The parts may have ended with different depths, and the larger one serves both.
      refine ⟨hr, max d₁ d₂, ?_⟩
      rw [execute_append, execute_eq_of_le (Nat.le_max_left d₁ d₂) (by simp) ha,
        Executed.andThen_completed]
      exact execute_eq_of_le (Nat.le_max_right d₁ d₂) hr hb

/-- A first statement that is executed with some depth, and the rest behind it. -/
theorem executesTo_cons_completed {st : Statement} {rest : Block} {scope scope' : Scope}
    {m m' : Machine} {r : Executed}
    (hs : ∃ depth, executeStatement (runBody depth) scope m st = ⟨.completed, scope', m'⟩)
    (hr : ExecutesTo rest scope' m' r) : ExecutesTo (st :: rest) scope m r := by
  obtain ⟨depth, hs⟩ := hs
  refine executesTo_append_iff (a := [st]).mpr (.inr ⟨scope', m', ⟨by simp, depth, ?_⟩, hr⟩)
  rw [execute, executeBlock_cons, hs]
  rfl

theorem executesTo_cons_failed {st : Statement} {scope scope' : Scope} {m m' : Machine}
    {e : RuntimeError} (rest : Block)
    (hs : ∃ depth, executeStatement (runBody depth) scope m st = ⟨.failed e, scope', m'⟩) :
    ExecutesTo (st :: rest) scope m ⟨.failed e, scope', m'⟩ := by
  obtain ⟨depth, hs⟩ := hs
  refine ⟨by simp, depth, ?_⟩
  rw [execute, executeBlock_cons, hs]
  rfl

/-- With one more level of depth, a body that ends can be run by a call. -/
theorem ExecutesTo.runBody {b : Block} {scope : Scope} {m : Machine} {r : Executed}
    (h : ExecutesTo b scope m r) :
    ∃ depth, Holov.runBody depth b scope m = (r.outcome, r.machine) := by
  obtain ⟨-, depth, rfl⟩ := h
  exact ⟨depth + 1, rfl⟩

def Machine.prepared (m : Machine) (ts : List Token) (p : Block) : Machine :=
  ((m.note (.lexed ts.length)).note (.tokenized ts.length)).note (.parsed p.length)

section Sources

variable {source : String} {ts : List Token} (ht : tokenize source = .ok ts)
include ht

theorem run_of_parse_error {e : ParseError} (hp : parse ts = .error e) (depth : Nat) (m : Machine) :
    run false depth source m =
      (.failed (.parsing e), (m.note (.lexed ts.length)).note (.tokenized ts.length)) := by
  simp only [run, ht, hp, Machine.list, Bool.false_eq_true, if_false]

theorem run_of_parse_ok {p : Block} (hp : parse ts = .ok p) (depth : Nat) (m : Machine) :
    run false depth source m =
      ((execute depth p {} (m.prepared ts p)).outcome.mapError .runtime,
        (execute depth p {} (m.prepared ts p)).machine) := by
  simp only [run, ht, hp, Machine.list, Bool.false_eq_true, if_false, Machine.prepared]
  generalize execute depth p {} _ = r
  obtain ⟨_ | e | _, s, m'⟩ := r <;> rfl

/-- A parsed source runs as its program is executed from an empty scope. -/
theorem runsTo_iff {p : Block} (hp : parse ts = .ok p) {m m' : Machine} {o : Outcome Failure} :
    RunsTo false source m (o, m') ↔
      ∃ r, ExecutesTo p {} (m.prepared ts p) r ∧ r.outcome.mapError .runtime = o ∧
        r.machine = m' := by
  constructor
  · rintro ⟨ho, depth, hr⟩
    rw [run_of_parse_ok ht hp, Prod.mk.injEq] at hr
    obtain ⟨rfl, rfl⟩ := hr
    exact ⟨_, ⟨mt Outcome.mapError_eq_tooDeep.mpr ho, depth, rfl⟩, rfl, rfl⟩
  · rintro ⟨r, ⟨ho, depth, rfl⟩, rfl, rfl⟩
    exact ⟨mt Outcome.mapError_eq_tooDeep.mp ho, depth, run_of_parse_ok ht hp depth m⟩

end Sources

end Holov
