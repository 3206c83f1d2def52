import Holov.Proofs.Execution.Parts

namespace Holov

/-- Whether a statement binds a name where it is completed. A call has no value to bind. -/
def Statement.binds : Statement → Bool
  | .definition (.value _) _ _ | .definition (.function _ _) _ _ => true
  | _ => false

/-- The scope with what the statement binds: a token's value in this very scope, or a function
literal. -/
def Scope.bind (scope : Scope) : Statement → Scope
  | .definition (.value t) name _ =>
    match scope.evaluate t with
    | .ok v => scope.defineVariable name v
    | .error _ => scope
  | .definition (.function params body) name _ => scope.defineFunction name ⟨params, body⟩
  | _ => scope

def Scope.bindAll (scope : Scope) (b : Block) : Scope :=
  b.foldl Scope.bind scope

namespace Scope

theorem bind_of_not_binds {st : Statement} (h : st.binds = false) (scope : Scope) :
    scope.bind st = scope := by
  cases st with
  | definition e name p =>
    cases e with
    | value t => cases h
    | function params body => cases h
    | call callee q args => rfl
  | expression e => cases e <;> rfl

theorem outer_bind (scope : Scope) (st : Statement) : (scope.bind st).outer = scope.outer := by
  cases st with
  | definition e name p =>
    cases e with
    | value t =>
      rw [bind]
      cases scope.evaluate t <;> rfl
    | function params body => rfl
    | call callee q args => rfl
  | expression e => cases e <;> rfl

/-- Statements bind in the innermost frame only. -/
theorem outer_bindAll (scope : Scope) (b : Block) : (scope.bindAll b).outer = scope.outer := by
  induction b generalizing scope with
  | nil => rfl
  | cons st b ih => exact (ih (scope.bind st)).trans (outer_bind scope st)

theorem depth_bindAll (scope : Scope) (b : Block) : (scope.bindAll b).depth = scope.depth := by
  rw [depth, depth, frames, frames, List.length_cons, List.length_cons, outer_bindAll]

end Scope

section Statements

variable {enter : BodyRunner} {scope : Scope} {m : Machine} {st : Statement}

/-- A statement that is not a call is completed and binds what it binds, or has found a name
without a value. -/
theorem executeStatement_cases (enter : BodyRunner) (scope : Scope) (m : Machine)
    (st : Statement) :
    (∃ callee p args, st = .expression (.call callee p args)) ∨
    (∃ m', executeStatement enter scope m st = ⟨.completed, scope.bind st, m'⟩ ∧
      m'.sink = m.sink) ∨
    ∃ name p, scope.bind st = scope ∧
      executeStatement enter scope m st = ⟨.failed (.unboundName name p), scope, m⟩ := by
  cases st with
  | definition e name p =>
    cases e with
    | value t =>
      rw [executeStatement, Scope.bind]
      cases hv : scope.evaluate t with
      | error e =>
        obtain ⟨rfl, -⟩ := Scope.evaluate_eq_error hv
        exact .inr (.inr ⟨_, _, rfl, rfl⟩)
      | ok v => exact .inr (.inl ⟨_, rfl, rfl⟩)
    | function params body => exact .inr (.inl ⟨_, rfl, rfl⟩)
    | call callee q args => exact .inr (.inl ⟨_, rfl, rfl⟩)
  | expression e =>
    cases e with
    | value t => exact .inr (.inl ⟨_, rfl, rfl⟩)
    | function params body => exact .inr (.inl ⟨_, rfl, rfl⟩)
    | call callee p args => exact .inl ⟨callee, p, args, rfl⟩

/-- A statement does to its scope what it binds there. -/
theorem executeStatement_scope (enter : BodyRunner) (scope : Scope) (m : Machine)
    (st : Statement) : (executeStatement enter scope m st).scope = scope.bind st := by
  obtain ⟨callee, p, args, rfl⟩ | ⟨m', hx, -⟩ | ⟨name, p, hb, hx⟩ :=
    executeStatement_cases enter scope m st
  · rfl
  · rw [hx]
  · rw [hx, hb]

/-- A statement that is not completed binds nothing. -/
theorem executeStatement_scope_of_ne
    (h : (executeStatement enter scope m st).outcome ≠ .completed) :
    (executeStatement enter scope m st).scope = scope := by
  obtain ⟨callee, p, args, rfl⟩ | ⟨m', hx, -⟩ | ⟨name, p, hb, hx⟩ :=
    executeStatement_cases enter scope m st
  · rfl
  · exact absurd (by rw [hx]) h
  · rw [hx]

/-- A definition that is completed in a scope is so on every machine, and writes nothing. -/
theorem executeStatement_of_binds (hb : st.binds)
    (h : (executeStatement enter scope m st).outcome = .completed) (enter' : BodyRunner)
    (n : Machine) :
    ∃ event, executeStatement enter' scope n st = ⟨.completed, scope.bind st, n.note event⟩ := by
  cases st with
  | definition e name p =>
    cases e with
    | value t =>
      rw [executeStatement] at h ⊢
      rw [Scope.bind]
      cases hv : scope.evaluate t with
      | error e =>
        rw [hv] at h
        cases h
      | ok v => exact ⟨_, rfl⟩
    | function params body => exact ⟨_, rfl⟩
    | call callee q args => cases hb
  | expression e => cases e <;> cases hb

end Statements

section Blocks

variable {enter : BodyRunner} {b : Block} {scope : Scope} {m : Machine}

theorem executeBlock_cons_of_completed {st : Statement}
    (h : (executeStatement enter scope m st).outcome = .completed) :
    executeBlock enter (st :: b) scope m =
      executeBlock enter b (scope.bind st) (executeStatement enter scope m st).machine := by
  rw [executeBlock_cons, ← executeStatement_scope enter scope m st]
  simp only [Executed.andThen, h]

theorem executeBlock_cons_of_ne {st : Statement}
    (h : (executeStatement enter scope m st).outcome ≠ .completed) :
    executeBlock enter (st :: b) scope m = executeStatement enter scope m st := by
  rw [executeBlock_cons, Executed.andThen_of_ne h]

/-- The first statement of a block that is completed is so too. -/
theorem completed_of_cons {st : Statement}
    (h : (executeBlock enter (st :: b) scope m).outcome = .completed) :
    (executeStatement enter scope m st).outcome = .completed := by
  by_cases ho : (executeStatement enter scope m st).outcome = .completed
  · exact ho
  · rwa [executeBlock_cons_of_ne ho] at h

theorem executeBlock_scope_of_completed
    (h : (executeBlock enter b scope m).outcome = .completed) :
    (executeBlock enter b scope m).scope = scope.bindAll b := by
  induction b generalizing scope m with
  | nil => rfl
  | cons st b ih =>
    have hst := completed_of_cons h
    rw [executeBlock_cons_of_completed hst] at h ⊢
    exact ih h

/-- The definitions of a block that is completed, executed without its other statements. -/
theorem executeBlock_filter_binds (h : (executeBlock enter b scope m).outcome = .completed)
    (enter' : BodyRunner) (n : Machine) :
    ∃ n', executeBlock enter' (b.filter Statement.binds) scope n =
        ⟨.completed, scope.bindAll b, n'⟩ ∧ n'.sink = n.sink := by
  induction b generalizing scope m n with
  | nil => exact ⟨n, rfl, rfl⟩
  | cons st b ih =>
    have hst := completed_of_cons h
    rw [executeBlock_cons_of_completed hst] at h
    cases hb : st.binds with
    | false =>
      rw [List.filter_cons_of_neg (by simp [hb])]
      have hrest := ih h n
      rw [Scope.bind_of_not_binds hb] at hrest
      rw [Scope.bindAll, List.foldl_cons, Scope.bind_of_not_binds hb]
      exact hrest
    | true =>
      obtain ⟨event, hx⟩ := executeStatement_of_binds hb hst enter' n
      obtain ⟨n', hrest, hsink⟩ := ih h (n.note event)
      rw [List.filter_cons_of_pos hb, executeBlock_cons, hx, Executed.andThen_completed]
      exact ⟨n', hrest, hsink⟩

end Blocks

/-- The first `k` statements of a block were completed, and these are all of them, or the next one
failed. -/
def CompletesFirst (k : Nat) (b : Block) (scope : Scope) (m : Machine) (r : Executed) : Prop :=
  ∃ scope' m', ExecutesTo (b.take k) scope m ⟨.completed, scope', m'⟩ ∧
    ((k = b.length ∧ r = ⟨.completed, scope', m'⟩) ∨
      ∃ st e, b[k]? = some st ∧ ExecutesTo [st] scope' m' r ∧ r.outcome = .failed e)

/-- A block that ends has completed some of its statements and failed at the next one, if any. -/
theorem ExecutesTo.completesFirst {b : Block} {scope : Scope} {m : Machine} {r : Executed}
    (h : ExecutesTo b scope m r) : ∃ k, CompletesFirst k b scope m r := by
  induction b generalizing scope m with
  | nil =>
    obtain ⟨-, depth, rfl⟩ := h
    exact ⟨0, scope, m, ⟨nofun, 0, rfl⟩, .inl ⟨rfl, rfl⟩⟩
  | cons st b ih =>
    obtain ⟨hfirst, hne⟩ | ⟨scope', m', hfirst, hrest⟩ :=
      executesTo_append_iff (a := [st]).mp h
    -- The first statement ended the block, and not for lack of depth.
    · obtain ⟨e, he⟩ : ∃ e, r.outcome = .failed e := by
        rcases hr : r.outcome with _ | e | _
        · exact absurd hr hne
        · exact ⟨e, rfl⟩
        · exact absurd hr h.1
      exact ⟨0, scope, m, ⟨nofun, 0, rfl⟩, .inr ⟨st, e, rfl, hfirst, he⟩⟩
    · obtain ⟨k, scope₁, m₁, htaken, hend⟩ := ih hrest
      have htaken' : ExecutesTo ([st] ++ b.take k) scope m ⟨.completed, scope₁, m₁⟩ :=
        executesTo_append_iff.mpr (.inr ⟨scope', m', hfirst, htaken⟩)
      refine ⟨k + 1, scope₁, m₁, htaken', ?_⟩
      simpa using hend

/-- The scope behind the first `k` statements, of which the last one may be followed by one that
failed. -/
theorem CompletesFirst.scope_eq {k : Nat} {b : Block} {scope : Scope} {m : Machine} {r : Executed}
    (h : CompletesFirst k b scope m r) : r.scope = scope.bindAll (b.take k) := by
  obtain ⟨scope', m', ⟨-, depth, hd⟩, hend⟩ := h
  have hscope : scope' = scope.bindAll (b.take k) := by
    have hc : (execute depth (b.take k) scope m).outcome = .completed := by rw [hd]
    rw [← executeBlock_scope_of_completed hc, ← execute, hd]
  rcases hend with ⟨-, rfl⟩ | ⟨st, e, -, ⟨-, depth', rfl⟩, he⟩
  · exact hscope
  · have hne : (executeStatement (runBody depth') scope' m' st).outcome ≠ .completed := by
      intro hc
      rw [execute, executeBlock_cons_of_completed hc] at he
      cases he
    rw [execute, executeBlock_cons_of_ne hne, executeStatement_scope_of_ne hne, hscope]

/-- A block that ends leaves its scope with what its completed statements bind in the innermost
frame, and with the other frames as they were. If all are completed, its definitions alone lead to
the same scope and write nothing. -/
theorem execute_frame_effect {b : Block} {scope : Scope} {m : Machine} {r : Executed}
    (h : ExecutesTo b scope m r) :
    (∃ k, CompletesFirst k b scope m r) ∧
    (∀ k, CompletesFirst k b scope m r → r.scope = scope.bindAll (b.take k)) ∧
    r.scope.outer = scope.outer ∧ r.scope.depth = scope.depth ∧
    (r.outcome = .completed → ∀ n : Machine, ∃ n',
      ExecutesTo (b.filter Statement.binds) scope n ⟨.completed, r.scope, n'⟩ ∧
        n'.sink = n.sink) := by
  obtain ⟨k, hk⟩ := h.completesFirst
  refine ⟨⟨k, hk⟩, fun j hj => hj.scope_eq, ?_, ?_, fun hc n => ?_⟩
  · rw [hk.scope_eq, Scope.outer_bindAll]
  · rw [hk.scope_eq, Scope.depth_bindAll]
  · obtain ⟨-, depth, rfl⟩ := h
    obtain ⟨n', hx, hsink⟩ := executeBlock_filter_binds hc (runBody 0) n
    refine ⟨n', ⟨nofun, 0, ?_⟩, hsink⟩
    rw [execute, execute, hx, executeBlock_scope_of_completed hc]

/-- A call whose body binds two names and then fails, in a chain of two frames. -/
theorem execute_frame_effect_failed_body :
    ∃ r, ExecutesTo
        [.definition (.value ⟨.quote, "a", {}⟩) "ա" {},
          .definition (.function ["բ"] [.definition (.value ⟨.identifier, "բ", {}⟩) "ա" {},
            .expression (.call "դ" ⟨2, 1⟩ [])]) "ֆ" {},
          .expression (.call "ֆ" {} [⟨.quote, "b", {}⟩]),
          .definition (.value ⟨.quote, "c", {}⟩) "գ" {}]
        { outer := [{ values := [("ա", .text "d")] }] } {} r ∧
      r.outcome = .failed (.unknownFunction "դ" ⟨2, 1⟩) ∧
      r.scope = ⟨⟨[("ա", .text "a")], [("ֆ", ⟨["բ"], [.definition (.value ⟨.identifier, "բ", {}⟩)
        "ա" {}, .expression (.call "դ" ⟨2, 1⟩ [])]⟩)]⟩, [{ values := [("ա", .text "d")] }]⟩ := by
  let b : Block := [.definition (.value ⟨.quote, "a", {}⟩) "ա" {},
    .definition (.function ["բ"] [.definition (.value ⟨.identifier, "բ", {}⟩) "ա" {},
      .expression (.call "դ" ⟨2, 1⟩ [])]) "ֆ" {},
    .expression (.call "ֆ" {} [⟨.quote, "b", {}⟩]),
    .definition (.value ⟨.quote, "c", {}⟩) "գ" {}]
  let scope : Scope := { outer := [{ values := [("ա", .text "d")] }] }
  have ho : (execute 1 b scope {}).outcome = .failed (.unknownFunction "դ" ⟨2, 1⟩) := by
    decide +kernel
  have hx : ExecutesTo b scope {} (execute 1 b scope {}) := ⟨by rw [ho]; nofun, 1, rfl⟩
  have hk : CompletesFirst 2 b scope {} (execute 1 b scope {}) := by
    refine ⟨_, _, ⟨nofun, 0, rfl⟩, .inr ⟨_, _, rfl, ⟨by rw [ho]; nofun, 1, ?_⟩, ho⟩⟩
    with_unfolding_all rfl
  exact ⟨_, hx, ho, (execute_frame_effect hx).2.1 2 hk⟩

end Holov
