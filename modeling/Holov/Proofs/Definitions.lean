import Holov.Proofs.Execution.Parts
import Holov.Proofs.FrameEffect

namespace Holov

/-- The program defines the function under the name, at some depth. -/
def DefinesFunction (program : Block) (name : String) (r : Routine) : Prop :=
  ∃ p, .definition (.function r.params r.body) name p ∈ statementsOf program

theorem Statement.mem_statements (st : Statement) : st ∈ st.statements := by
  cases st <;> simp [statements]

theorem mem_statementsOf {st : Statement} {b : Block} (h : st ∈ b) : st ∈ statementsOf b := by
  induction b with
  | nil => cases h
  | cons s b ih =>
    rw [statementsOf, List.mem_append]
    rcases List.mem_cons.mp h with rfl | h
    · exact .inl st.mem_statements
    · exact .inr (ih h)

section Bodies

variable {params : List String} {body : Block} {name : String} {p : Position}

-- The body of a function that is defined somewhere in a program stands in the program as well.
mutual

theorem Expr.body_subset (e : Expr)
    (h : .definition (.function params body) name p ∈ e.statements) : body ⊆ e.statements := by
  cases e with
  | value t => cases h
  | function params' body' => exact body_subset_statementsOf body' h
  | call callee q args => cases h

theorem Statement.body_subset (s : Statement)
    (h : .definition (.function params body) name p ∈ s.statements) : body ⊆ s.statements := by
  intro st hst
  cases s with
  | definition e other q =>
    refine List.mem_cons_of_mem _ ?_
    rcases List.mem_cons.mp h with heq | h
    · cases heq
      exact mem_statementsOf hst
    · exact Expr.body_subset e h hst
  | expression e =>
    refine List.mem_cons_of_mem _ ?_
    rcases List.mem_cons.mp h with heq | h
    · cases heq
    · exact Expr.body_subset e h hst

theorem body_subset_statementsOf (b : List Statement)
    (h : .definition (.function params body) name p ∈ statementsOf b) : body ⊆ statementsOf b := by
  intro st hst
  cases b with
  | nil => cases h
  | cons s rest =>
    rw [statementsOf, List.mem_append] at h ⊢
    rcases h with h | h
    · exact .inl (Statement.body_subset s h hst)
    · exact .inr (body_subset_statementsOf rest h hst)

end

end Bodies

def Scope.DefinedIn (program : Block) (scope : Scope) : Prop :=
  ∀ name r, scope.routine? name = some r → DefinesFunction program name r

section Program

variable {program : Block}

theorem DefinesFunction.body_subset {name : String} {r : Routine}
    (h : DefinesFunction program name r) : r.body ⊆ statementsOf program := by
  obtain ⟨p, hp⟩ := h
  exact body_subset_statementsOf program hp

theorem Scope.DefinedIn.enter {scope : Scope} (h : scope.DefinedIn program)
    (pairs : List (String × Value)) : (scope.enter.defineVariables pairs).DefinedIn program := by
  intro name r hr
  rw [routine?_defineVariables, routine?_enter] at hr
  exact h name r hr

/-- A statement of the program adds no function to the scope but one that it writes out. -/
theorem Scope.DefinedIn.bind {scope : Scope} (h : scope.DefinedIn program) {st : Statement}
    (hst : st ∈ statementsOf program) : (scope.bind st).DefinedIn program := by
  cases st with
  | definition e name p =>
    cases e with
    | value t =>
      rw [Scope.bind]
      cases scope.evaluate t with
      | error e => exact h
      | ok v => exact h
    | function params body =>
      intro other r hr
      rw [Scope.bind, routine?_defineFunction] at hr
      split at hr
      · rename_i heq
        cases hr
        exact heq ▸ ⟨p, hst⟩
      · exact h other r hr
    | call callee q args => exact h
  | expression e => cases e <;> exact h

end Program

end Holov
