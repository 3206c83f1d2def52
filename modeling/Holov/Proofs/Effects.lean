import Holov.Proofs.Execution.Call

/-!
What a run does to the world is a list of effects, which the program determines and the machine
does not. The machine decides how far the list gets: it performs the effects one after the other,
up to the first one whose text its sink refuses.
-/
namespace Holov

inductive Effect where
  | noted (event : Event)
  | listed (text : String)
  /-- A call of a built-in function; the position is that of the callee. -/
  | printed (f : Builtin) (position : Position) (values : List Value)

namespace Effect

def events : Effect → List Event
  | noted event => [event]
  | listed _ => []
  | printed f p values => [.builtinCalled f.name p values.length]

def text : Effect → String
  | noted _ => ""
  | listed text => text
  | printed f _ values => f.output values

def bytes (e : Effect) : List UInt8 :=
  e.text.toUTF8.data.toList

def refused (details : String) : Effect → Failure
  | printed _ p _ => .runtime (.output details p)
  | _ => .output details

end Effect

def Machine.act (m : Machine) : Effect → Bool × Machine
  | .noted event => (true, m.note event)
  | .listed text => m.write text
  | .printed f p values =>
    (m.note (.builtinCalled f.name p values.length)).write (f.output values)

/-- Does the effects in order and ends as `o`, unless one of them is refused. -/
def Machine.perform (o : Outcome Failure) : List Effect → Machine → Outcome Failure × Machine
  | [], m => (o, m)
  | e :: es, m =>
    match m.act e with
    | (true, m) => perform o es m
    | (false, m) => (.failed (e.refused m.sink.refusal), m)

namespace Machine

theorem perform_noted (o : Outcome Failure) (event : Event) (es : List Effect) (m : Machine) :
    perform o (.noted event :: es) m = perform o es (m.note event) := rfl

theorem perform_append (o : Outcome Failure) (es fs : List Effect) (m : Machine) :
    perform o (es ++ fs) m =
      match perform .completed es m with
      | (.completed, m) => perform o fs m
      | stopped => stopped := by
  induction es generalizing m with
  | nil => rfl
  | cons e es ih =>
    rw [List.cons_append, perform, perform]
    rcases m.act e with ⟨ok, m'⟩
    cases ok with
    | true => exact ih m'
    | false => rfl

/-- Only a refusal makes a run end otherwise. -/
theorem perform_fst (o : Outcome Failure) (es : List Effect) (m : Machine) :
    (perform o es m).1 = o ∨ ∃ f, (perform o es m).1 = .failed f := by
  induction es generalizing m with
  | nil => exact .inl rfl
  | cons e es ih =>
    rw [perform]
    rcases m.act e with ⟨ok, m'⟩
    cases ok with
    | true => exact ih m'
    | false => exact .inr ⟨_, rfl⟩

end Machine

theorem Outcome.mapError_eq_completed {ε ε' : Type} {g : ε → ε'} {o : Outcome ε} :
    o.mapError g = .completed ↔ o = .completed := by
  cases o <;> simp [mapError]

/-- Starting from `m`, `x` is where the effects `es` lead if the run ends as `o` after them. -/
def Does (es : List Effect) (o : Outcome RuntimeError) (m : Machine)
    (x : Outcome RuntimeError × Machine) : Prop :=
  (x.1.mapError .runtime, x.2) = m.perform (o.mapError .runtime) es

def Unlisted (es : List Effect) : Prop :=
  ∀ text, .listed text ∉ es

theorem unlisted_nil : Unlisted [] := by
  intro text h
  cases h

theorem Unlisted.noted {es : List Effect} (h : Unlisted es) (event : Event) :
    Unlisted (.noted event :: es) := by
  intro text hm
  rcases List.mem_cons.mp hm with hm | hm
  · cases hm
  · exact h text hm

theorem Unlisted.append {es fs : List Effect} (h : Unlisted es) (h' : Unlisted fs) :
    Unlisted (es ++ fs) := by
  intro text hm
  rcases List.mem_append.mp hm with hm | hm
  · exact h text hm
  · exact h' text hm

theorem callBuiltin_does (f : Builtin) (p : Position) (values : List Value) (m : Machine) :
    Does [.printed f p values] .completed m (m.callBuiltin f f.name p values) := by
  simp only [Does, Machine.callBuiltin, Machine.perform, Machine.act]
  rcases (m.note (.builtinCalled f.name p values.length)).write (f.output values) with ⟨ok, m'⟩
  cases ok <;> rfl

def RunsEffects (enter : BodyRunner) : Prop :=
  ∀ b s, ∃ es o, Unlisted es ∧ ∀ m, Does es o m (enter b s m)

section Runners

variable {enter : BodyRunner} (he : RunsEffects enter)
include he

theorem callWith_does (scope : Scope) (callee : String) (p : Position) (args : List Token) :
    ∃ es o, Unlisted es ∧ ∀ m, Does es o m (callWith enter scope callee p args m) := by
  cases callCase scope callee args with
  | unknown hc =>
    refine ⟨[], .failed (.unknownFunction callee p), unlisted_nil, fun m => ?_⟩
    rw [callWith_unknown hc]
    rfl
  | @argument _ e hc ha =>
    refine ⟨[], .failed e, unlisted_nil, fun m => ?_⟩
    rw [callWith_argument hc ha]
    rfl
  | @builtin f values hc ha =>
    refine ⟨[.printed f p values], .completed, fun text h => by simp at h, fun m => ?_⟩
    obtain rfl := Builtin.name_of_ofName? (Scope.callee?_builtin hc).2
    rw [callWith_builtin hc ha]
    exact callBuiltin_does f p values m
  | @arity r values hc ha hl =>
    refine ⟨[], .failed (.wrongArity callee r.params.length values.length p), unlisted_nil,
      fun m => ?_⟩
    rw [callWith_arity hc ha hl]
    rfl
  | @routine r values hc ha hl =>
    obtain ⟨es, o, hu, hd⟩ := he r.body (scope.enter.defineVariables (r.params.zip values))
    refine ⟨.noted (.functionCalled callee p (scope.depth + 1)) :: es, o, hu.noted _,
      fun m => ?_⟩
    rw [callWith_routine hc ha hl]
    exact hd (m.note _)

/-- What a statement does to its scope does not depend on the machine either. -/
theorem executeStatement_does (scope : Scope) (s : Statement) :
    ∃ es o scope', Unlisted es ∧ ∀ m, (executeStatement enter scope m s).scope = scope' ∧
      Does es o m ((executeStatement enter scope m s).outcome,
        (executeStatement enter scope m s).machine) := by
  cases s with
  | definition e name p =>
    cases e with
    | value t =>
      simp only [executeStatement]
      cases scope.evaluate t with
      | error e => exact ⟨[], .failed e, scope, unlisted_nil, fun _ => ⟨rfl, rfl⟩⟩
      | ok v => exact ⟨[.noted _], .completed, _, unlisted_nil.noted _, fun _ => ⟨rfl, rfl⟩⟩
    | function params body =>
      exact ⟨[.noted _], .completed, _, unlisted_nil.noted _, fun _ => ⟨rfl, rfl⟩⟩
    | call callee q args =>
      exact ⟨[.noted _], .completed, scope, unlisted_nil.noted _, fun _ => ⟨rfl, rfl⟩⟩
  | expression e =>
    cases e with
    | value t => exact ⟨[], .completed, scope, unlisted_nil, fun _ => ⟨rfl, rfl⟩⟩
    | function params body => exact ⟨[], .completed, scope, unlisted_nil, fun _ => ⟨rfl, rfl⟩⟩
    | call callee p args =>
      obtain ⟨es, o, hu, hd⟩ := callWith_does he scope callee p args
      exact ⟨es, o, scope, hu, fun m => ⟨rfl, hd m⟩⟩

theorem executeBlock_does (b : Block) (scope : Scope) :
    ∃ es o, Unlisted es ∧ ∀ m, Does es o m ((executeBlock enter b scope m).outcome,
      (executeBlock enter b scope m).machine) := by
  -- Where a statement is completed its scope is known, and with it the effects of the others.
  induction b generalizing scope with
  | nil => exact ⟨[], .completed, unlisted_nil, fun _ => rfl⟩
  | cons s b ih =>
    obtain ⟨es, o, scope', hu, hs⟩ := executeStatement_does he scope s
    obtain ⟨fs, o', hu', hb⟩ := ih scope'
    by_cases ho : o = .completed
    · refine ⟨es ++ fs, o', hu.append hu', fun m => ?_⟩
      obtain ⟨hscope, hd⟩ := hs m
      rw [Does, Machine.perform_append, executeBlock_cons]
      rw [Does, ho, Outcome.mapError] at hd
      rw [← hd]
      rcases hx : executeStatement enter scope m s with ⟨_ | e | _, scope₁, m₁⟩
      · obtain rfl : scope₁ = scope' := by rw [← hscope, hx]
        exact hb m₁
      · rfl
      · rfl
    · refine ⟨es, o, hu, fun m => ?_⟩
      obtain ⟨-, hd⟩ := hs m
      have hne : (executeStatement enter scope m s).outcome ≠ .completed := by
        intro hc
        rw [Does, hc, Outcome.mapError] at hd
        rcases Machine.perform_fst (o.mapError .runtime) es m with h | ⟨f, h⟩
        · rw [← hd] at h
          exact ho (Outcome.mapError_eq_completed.mp h.symm)
        · rw [← hd] at h
          cases h
      rw [executeBlock_cons, Executed.andThen_of_ne hne]
      exact hd

end Runners

theorem runBody_effects (depth : Nat) : RunsEffects (runBody depth) := by
  induction depth with
  | zero => exact fun b s => ⟨[], .tooDeep, unlisted_nil, fun _ => rfl⟩
  | succ depth ih => exact fun b s => executeBlock_does ih b s

/-- Executing a block does the same effects on every machine. -/
theorem execute_does (depth : Nat) (b : Block) (scope : Scope) :
    ∃ es o, Unlisted es ∧ ∀ m,
      Does es o m ((execute depth b scope m).outcome, (execute depth b scope m).machine) :=
  executeBlock_does (runBody_effects depth) b scope

def listedIf (listing : Bool) (text : String) : List Effect :=
  if listing then [.listed text] else []

def preliminaries (listing : Bool) (source : String) : List Effect :=
  match tokenize source with
  | .error _ => []
  | .ok ts =>
    .noted (.lexed ts.length) :: .noted (.tokenized ts.length) ::
      (listedIf listing (listTokens ts) ++
        match parse ts with
        | .error _ => []
        | .ok program =>
          .noted (.parsed program.length) :: listedIf listing (listProgram program))

theorem perform_listedIf (o : Outcome Failure) (listing : Bool) (text : String)
    (es : List Effect) (m : Machine) :
    m.perform o (listedIf listing text ++ es) =
      match m.list listing fun _ => text with
      | (true, m) => m.perform o es
      | (false, m) => (.failed (.output m.sink.refusal), m) := by
  cases listing <;> rfl

/-- A run does its preliminaries, and then the effects of its program, which are the same with and
without listings. -/
theorem run_performs (depth : Nat) (source : String) :
    ∃ es o, Unlisted es ∧ ∀ listing m,
      run listing depth source m = m.perform o (preliminaries listing source ++ es) := by
  cases ht : tokenize source with
  | error e =>
    refine ⟨[], .failed (.lexing e), unlisted_nil, fun listing m => ?_⟩
    simp only [run, preliminaries, ht]
    rfl
  | ok ts =>
    cases hp : parse ts with
    | error e =>
      refine ⟨[], .failed (.parsing e), unlisted_nil, fun listing m => ?_⟩
      simp only [run, preliminaries, ht, hp, List.cons_append, List.append_assoc, List.nil_append,
        Machine.perform_noted, perform_listedIf]
      rcases Machine.list _ listing _ with ⟨ok, m₁⟩
      cases ok <;> rfl
    | ok program =>
      obtain ⟨es, o, hu, hd⟩ := execute_does depth program {}
      refine ⟨es, o.mapError .runtime, hu, fun listing m => ?_⟩
      simp only [run, preliminaries, ht, hp, List.cons_append, List.append_assoc,
        Machine.perform_noted, perform_listedIf]
      rcases Machine.list _ listing _ with ⟨ok, m₁⟩
      cases ok with
      | false => rfl
      | true =>
        dsimp only
        rcases Machine.list _ listing _ with ⟨ok, m₂⟩
        cases ok with
        | false => rfl
        | true =>
          refine Eq.trans ?_ (hd m₂)
          dsimp only
          rcases execute depth program {} m₂ with ⟨_ | e | _, scope, m₃⟩ <;> rfl

end Holov
