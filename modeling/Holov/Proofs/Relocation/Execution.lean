import Holov.Proofs.Execution.Simulation
import Holov.Proofs.Relocation

namespace Holov

variable (f : Position → Position)

namespace Scope

theorem value?_relocate (s : Scope) (name : String) :
    (s.relocate f).value? name = s.value? name :=
  s.value?_mapRoutines _ name

theorem evaluate_relocate (s : Scope) (t : Token) :
    (s.relocate f).evaluate (t.relocate f) = (s.evaluate t).mapError (RuntimeError.relocate f) := by
  have hl : (if (t.relocate f).kind = .identifier then (s.relocate f).value? (t.relocate f).text
      else Value.ofLiteral? (t.relocate f)) =
      if t.kind = .identifier then s.value? t.text else Value.ofLiteral? t := by
    rw [Token.relocate_text, value?_relocate]
    rfl
  unfold evaluate
  rw [hl]
  generalize (if t.kind = .identifier then s.value? t.text else Value.ofLiteral? t) = found?
  cases found? <;> rfl

theorem evaluateAll_relocate (s : Scope) (ts : List Token) :
    (ts.map (Token.relocate f)).mapM (s.relocate f).evaluate =
      (ts.mapM s.evaluate).mapError (RuntimeError.relocate f) := by
  induction ts with
  | nil => rfl
  | cons t ts ih =>
    rw [List.map_cons, List.mapM_cons, List.mapM_cons, evaluate_relocate, ih]
    cases s.evaluate t with
    | error e => rfl
    | ok v => cases ts.mapM s.evaluate <;> rfl

/-- A call in the moved scope finds what it finds in the scope, moved. -/
theorem callee?_relocate (s : Scope) (name : String) :
    CalleesSimulate (fun b b' => b' = relocateBlock f b) (fun s s' => s' = s.relocate f) s
      (s.relocate f) (s.callee? name) ((s.relocate f).callee? name) :=
  s.callee?_mapRoutines (f := Routine.relocate f) (fun _ => rfl) (fun _ => rfl) name

end Scope

section Runners

variable {f} {enter enter' : BodyRunner}
  (he : RunnersSimulate (RuntimeError.relocate f) (fun b b' => b' = relocateBlock f b)
    (fun s s' => s' = s.relocate f) enter enter')
include he

theorem executeStatement_relocate (scope : Scope) (s : Statement) {m m' : Machine}
    (hm : m'.sink = m.sink) :
    Simulates (RuntimeError.relocate f) (fun s s' => s' = s.relocate f)
      (executeStatement enter scope m s)
      (executeStatement enter' (scope.relocate f) m' (s.relocate f)) := by
  cases s with
  | definition e name p =>
    cases e with
    | value t =>
      simp only [Statement.relocate, Expr.relocate, executeStatement, Scope.evaluate_relocate]
      cases scope.evaluate t with
      | error e => exact ⟨rfl, rfl, hm⟩
      | ok v => exact ⟨rfl, rfl, hm⟩
    | function params body =>
      exact ⟨rfl, (scope.defineFunction_mapRoutines _ name ⟨params, body⟩).symm, hm⟩
    | call callee q args => exact ⟨rfl, rfl, hm⟩
  | expression e =>
    cases e with
    | value t => exact ⟨rfl, rfl, hm⟩
    | function params body => exact ⟨rfl, rfl, hm⟩
    | call callee p args =>
      obtain ⟨ho, hsink⟩ := callWith_simulates he ⟨rfl, fun _ _ => rfl, fun _ => rfl⟩
        (scope.callee?_relocate f callee) (scope.evaluateAll_relocate f args) hm (p := p)
      exact ⟨ho, rfl, hsink⟩

theorem executeBlock_relocate (b : Block) (scope : Scope) {m m' : Machine}
    (hm : m'.sink = m.sink) :
    Simulates (RuntimeError.relocate f) (fun s s' => s' = s.relocate f)
      (executeBlock enter b scope m)
      (executeBlock enter' (relocateBlock f b) (scope.relocate f) m') := by
  -- A statement may define something, so the induction is over all scopes and machines.
  induction b generalizing scope m m' with
  | nil => exact ⟨rfl, rfl, hm⟩
  | cons s b ih =>
    rw [relocateBlock, executeBlock_cons, executeBlock_cons]
    apply (executeStatement_relocate he scope s hm).andThen
    rintro scope₁ _ m₁ m₁' rfl hm₁
    exact ih scope₁ hm₁

end Runners

/-- Execution commutes with every map of positions, for machines with the same sink. -/
theorem execute_relocate (f : Position → Position) (depth : Nat) (b : Block) (scope : Scope)
    {m m' : Machine} (hm : m'.sink = m.sink) :
    Simulates (RuntimeError.relocate f) (fun s s' => s' = s.relocate f) (execute depth b scope m)
      (execute depth (relocateBlock f b) (scope.relocate f) m') := by
  refine execute_simulates (B := fun b b' => b' = relocateBlock f b) ?_ depth rfl rfl hm
  rintro enter enter' he b _ s _ m m' rfl rfl hm
  exact executeBlock_relocate he b s hm

/-- Execution reads nothing of the machine but its sink. -/
theorem ExecutesTo.of_sink {b : Block} {scope : Scope} {m n : Machine} {r : Executed}
    (h : ExecutesTo b scope m r) (hs : n.sink = m.sink) :
    ∃ r', ExecutesTo b scope n r' ∧ r'.outcome = r.outcome ∧ r'.machine.sink = r.machine.sink := by
  have hsim : ∀ depth, Simulates (RuntimeError.relocate id) (fun s s' => s' = s.relocate id)
      (execute depth b scope m) (execute depth b scope n) := by
    intro depth
    have hd := execute_relocate id depth b scope hs
    rwa [relocateBlock_id, Scope.relocate_id] at hd
  obtain ⟨r', hr', hr⟩ := h.simulated hsim
  refine ⟨r', hr', ?_, hr.sink⟩
  rw [hr.outcome, RuntimeError.relocate_id, Outcome.mapError_id]

end Holov
