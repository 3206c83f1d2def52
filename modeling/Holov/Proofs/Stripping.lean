import Holov.Proofs.Execution.Parts
import Holov.Proofs.Execution.Simulation

namespace Holov

/-- Whether a statement does nothing: of the expressions only calls have an effect, and a call has
no value to be defined by. -/
def Statement.isInert : Statement → Bool
  | .expression (.value _) | .expression (.function _ _) | .definition (.call _ _ _) _ _ => true
  | _ => false

mutual

def Expr.strip : Expr → Expr
  | .function params body => .function params (stripBlock body)
  | .value t => .value t
  | .call callee p args => .call callee p args

def Statement.strip : Statement → Statement
  | .definition e name p => .definition e.strip name p
  | .expression e => .expression e.strip

/-- Takes out the inert statements, also in the bodies of function literals. -/
def stripBlock : List Statement → List Statement
  | [] => []
  | s :: rest => if s.isInert then stripBlock rest else s.strip :: stripBlock rest

end

def Routine.strip (r : Routine) : Routine :=
  ⟨r.params, stripBlock r.body⟩

def Scope.strip (s : Scope) : Scope :=
  s.mapRoutines Routine.strip

namespace Scope

theorem evaluate_strip (s : Scope) : s.strip.evaluate = s.evaluate := by
  funext t
  rw [evaluate, strip, value?_mapRoutines]
  rfl

/-- A call finds what it found before, with the inert statements taken out. -/
theorem callee?_strip (s : Scope) (name : String) :
    CalleesSimulate (fun b b' => b' = stripBlock b) (fun s s' => s' = s.strip) s s.strip
      (s.callee? name) (s.strip.callee? name) :=
  s.callee?_mapRoutines (f := Routine.strip) (fun _ => rfl) (fun _ => rfl) name

end Scope

/-- An inert statement leaves the scope and the sink as they are. -/
theorem executeStatement_inert {st : Statement} (h : st.isInert) (enter : BodyRunner)
    (s : Scope) (m : Machine) :
    ∃ m', executeStatement enter s m st = ⟨.completed, s, m'⟩ ∧ m'.sink = m.sink := by
  cases st with
  | definition e name p =>
    cases e with
    | value t => cases h
    | function params body => cases h
    | call callee q args => exact ⟨m.note _, rfl, rfl⟩
  | expression e =>
    cases e with
    | value t => exact ⟨m, rfl, rfl⟩
    | function params body => exact ⟨m, rfl, rfl⟩
    | call callee p args => cases h

section Runners

variable {enter enter' : BodyRunner}
  (he : RunnersSimulate id (fun b b' => b' = stripBlock b) (fun s s' => s' = s.strip) enter enter')
include he

theorem executeStatement_strip {st : Statement} (h : st.isInert = false) (s : Scope)
    {m m' : Machine} (hm : m'.sink = m.sink) :
    Simulates id (fun s s' => s' = s.strip) (executeStatement enter s m st)
      (executeStatement enter' s.strip m' st.strip) := by
  cases st with
  | definition e name p =>
    cases e with
    | value t =>
      simp only [Statement.strip, Expr.strip, executeStatement, s.evaluate_strip]
      cases s.evaluate t with
      | error e => exact ⟨rfl, rfl, hm⟩
      | ok v => exact ⟨rfl, rfl, hm⟩
    | function params body =>
      exact ⟨rfl, (s.defineFunction_mapRoutines _ name ⟨params, body⟩).symm, hm⟩
    | call callee q args => cases h
  | expression e =>
    cases e with
    | value t => cases h
    | function params body => cases h
    | call callee p args =>
      have ha : args.mapM s.strip.evaluate = (args.mapM s.evaluate).mapError id := by
        rw [s.evaluate_strip]
        cases args.mapM s.evaluate <;> rfl
      obtain ⟨ho, hsink⟩ := callWith_simulates he ⟨rfl, fun _ _ => rfl, fun _ => rfl⟩
        (s.callee?_strip callee) ha hm (p := p)
      exact ⟨ho, rfl, hsink⟩

theorem executeBlock_strip (b : Block) (s : Scope) {m m' : Machine} (hm : m'.sink = m.sink) :
    Simulates id (fun s s' => s' = s.strip) (executeBlock enter b s m)
      (executeBlock enter' (stripBlock b) s.strip m') := by
  induction b generalizing s m m' with
  | nil => exact ⟨rfl, rfl, hm⟩
  | cons st b ih =>
    rw [executeBlock_cons, stripBlock]
    cases h : st.isInert with
    | true =>
      -- The statement is executed on one side only, and leaves all as it was but the log.
      obtain ⟨m₁, hx, hm₁⟩ := executeStatement_inert h enter s m
      rw [hx, Executed.andThen_completed]
      exact ih s (hm.trans hm₁.symm)
    | false =>
      rw [if_neg (by simp), executeBlock_cons]
      apply (executeStatement_strip he h s hm).andThen
      rintro s₁ _ m₁ m₁' rfl hm₁
      exact ih s₁ hm₁

end Runners

theorem Statement.isInert_strip (st : Statement) : st.strip.isInert = st.isInert := by
  cases st with
  | definition e name p => cases e <;> rfl
  | expression e => cases e <;> rfl

mutual

theorem Expr.statements_strip (e : Expr) : ∀ st ∈ e.strip.statements, st.isInert = false := by
  cases e with
  | value t => simp [Expr.strip, Expr.statements]
  | function params body => exact statementsOf_stripBlock body
  | call callee p args => simp [Expr.strip, Expr.statements]

theorem Statement.statements_strip (s : Statement) (h : s.isInert = false) :
    ∀ st ∈ s.strip.statements, st.isInert = false := by
  have hs := s.isInert_strip.trans h
  cases s with
  | definition e name p => exact List.forall_mem_cons.mpr ⟨hs, Expr.statements_strip e⟩
  | expression e => exact List.forall_mem_cons.mpr ⟨hs, Expr.statements_strip e⟩

/-- No inert statement is left, at any depth. -/
theorem statementsOf_stripBlock (b : List Statement) :
    ∀ st ∈ statementsOf (stripBlock b), st.isInert = false := by
  cases b with
  | nil => simp [stripBlock, statementsOf]
  | cons s rest =>
    have hrest := statementsOf_stripBlock rest
    rw [stripBlock]
    cases h : s.isInert with
    | true => exact hrest
    | false => exact List.forall_mem_append.mpr ⟨Statement.statements_strip s h, hrest⟩

end

/-- A block without its inert statements, in a scope whose functions are without theirs, ends if
and only if it did before, with the same outcome, with the same bytes, and with the scope that is
left without theirs. -/
theorem execute_strip (b : Block) (scope : Scope) (m : Machine) :
    (∀ x, ExecutesTo b scope m x → ∃ y, ExecutesTo (stripBlock b) scope.strip m y ∧
      Simulates id (fun s s' => s' = s.strip) x y) ∧
    (∀ y, ExecutesTo (stripBlock b) scope.strip m y → ∃ x, ExecutesTo b scope m x ∧
      Simulates id (fun s s' => s' = s.strip) x y) ∧
    ∀ st ∈ statementsOf (stripBlock b), st.isInert = false := by
  have h : ∀ depth, Simulates id (fun s s' => s' = s.strip) (execute depth b scope m)
      (execute depth (stripBlock b) scope.strip m) := by
    intro depth
    refine execute_simulates (B := fun b b' => b' = stripBlock b) ?_ depth rfl rfl rfl
    rintro enter enter' he b _ s _ m m' rfl rfl hm
    exact executeBlock_strip he b s hm
  exact ⟨fun x hx => hx.simulated h, fun y hy => hy.simulating h, statementsOf_stripBlock b⟩

/-- A function with statements that do nothing around the one that prints, in a scope whose own
function has another one. -/
theorem execute_strip_call :
    ∃ y, ExecutesTo
        [.definition (.function ["ա"] [.expression (.call "բ" {} [⟨.identifier, "ա", {}⟩])]) "գ" {},
          .expression (.call "գ" {} [⟨.quote, "a", {}⟩]),
          .expression (.call "դ" ⟨4, 1⟩ [])]
        { frame := { routines :=
          [("բ", ⟨["ա"], [.expression (.call "տպիր" {} [⟨.identifier, "ա", {}⟩])]⟩)] } } {} y ∧
      y.outcome = .failed (.unknownFunction "դ" ⟨4, 1⟩) ∧
      y.machine.sink = { written := #[97, 10] } := by
  let b : Block := [.definition (.function ["ա"] [.expression (.value ⟨.number, "5", {}⟩),
      .expression (.call "բ" {} [⟨.identifier, "ա", {}⟩]),
      .definition (.call "բ" {} [⟨.identifier, "ա", {}⟩]) "դ" {}]) "գ" {},
    .expression (.function ["ա"] []),
    .expression (.call "գ" {} [⟨.quote, "a", {}⟩]),
    .expression (.call "դ" ⟨4, 1⟩ [])]
  let scope : Scope := { frame := { routines := [("բ", ⟨["ա"],
    [.expression (.call "տպիր" {} [⟨.identifier, "ա", {}⟩]),
      .expression (.value ⟨.identifier, "ե", {}⟩)]⟩)] } }
  have ho : (execute 2 b scope {}).outcome = .failed (.unknownFunction "դ" ⟨4, 1⟩) := by
    decide +kernel
  have hs : (execute 2 b scope {}).machine.sink = { written := #[97, 10] } := by decide +kernel
  have hx : ExecutesTo b scope {} (execute 2 b scope {}) := ⟨by rw [ho]; nofun, 2, rfl⟩
  obtain ⟨y, hy, hsim⟩ := (execute_strip b scope {}).1 _ hx
  refine ⟨y, hy, ?_, hsim.sink.trans hs⟩
  rw [hsim.outcome, ho]
  rfl

end Holov
