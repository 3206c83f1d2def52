import Holov.Proofs.Definitions
import Mathlib.Data.Finset.Card
import Mathlib.Data.Finset.Dedup
import Mathlib.Logic.Relation

namespace Holov

/-- A function that the program defines as `f` has a statement of its own that calls `g`. -/
def Calls (program : Block) (f g : String) : Prop :=
  ∃ r p args, DefinesFunction program f r ∧ .expression (.call g p args) ∈ r.body

def Statement.functionName? : Statement → Option String
  | .definition (.function _ _) name _ => some name
  | _ => none

def functionNames (program : Block) : Finset String :=
  ((statementsOf program).filterMap Statement.functionName?).toFinset

/-- There is a moment in the execution of the block at which the functions `names` are being
executed, each called by the one in front of it. -/
inductive Active : Block → Scope → Machine → List String → Prop
  | here {b : Block} {scope : Scope} {m : Machine} : Active b scope m []
  | call {before after : Block} {scope scope' : Scope} {m m' : Machine} {callee : String}
      {p : Position} {args : List Token} {r : Routine} {values : List Value} {names : List String}
      (hb : ExecutesTo before scope m ⟨.completed, scope', m'⟩)
      (hc : scope'.callee? callee = some (.routine r)) (ha : args.mapM scope'.evaluate = .ok values)
      (hl : r.params.length = values.length)
      (hn : Active r.body (scope'.enter.defineVariables (r.params.zip values))
        (m'.note (.functionCalled callee p (scope'.depth + 1))) names) :
      Active (before ++ .expression (.call callee p args) :: after) scope m (callee :: names)

/-- An execution that its depth is enough for has no more active calls than that. -/
theorem Active.length_le {b : Block} {scope : Scope} {m : Machine} {names : List String}
    (h : Active b scope m names) {depth : Nat}
    (hd : (execute depth b scope m).outcome ≠ .tooDeep) : names.length ≤ depth := by
  induction h generalizing depth with
  | here => exact Nat.zero_le _
  | @call before after scope scope' m m' callee p args r values names hb hc ha hl _ ih =>
    rw [execute_append] at hd
    -- What stands before the call ended with some depth, and so it did with this one.
    have hbefore : execute depth before scope m = ⟨.completed, scope', m'⟩ := by
      have hne : (execute depth before scope m).outcome ≠ .tooDeep := by
        intro ho
        rw [Executed.andThen_of_ne (by rw [ho]; nofun)] at hd
        exact hd ho
      exact ExecutesTo.unique ⟨hne, depth, rfl⟩ hb
    rw [hbefore, Executed.andThen_completed, execute, executeBlock_cons, executeStatement_call,
      callWith_routine hc ha hl] at hd
    cases depth with
    | zero => exact absurd rfl hd
    | succ depth =>
      have hbody : (execute depth r.body (scope'.enter.defineVariables (r.params.zip values))
          (m'.note (.functionCalled callee p (scope'.depth + 1)))).outcome ≠ .tooDeep := by
        intro ho
        rw [execute] at ho
        simp [runBody, ho, Executed.andThen] at hd
      exact Nat.succ_le_succ (ih hbody)

section Program

variable {program : Block}

theorem mem_functionNames {name : String} {r : Routine} (h : DefinesFunction program name r) :
    name ∈ functionNames program := by
  obtain ⟨p, hp⟩ := h
  exact List.mem_toFinset.mpr (List.mem_filterMap.mpr ⟨_, hp, rfl⟩)

/-- A statement ends if the body that it calls does. -/
theorem executeStatement_ends {enter : BodyRunner} {scope : Scope} {m : Machine} {st : Statement}
    (h : ∀ callee p args r, st = .expression (.call callee p args) →
      scope.routine? callee = some r →
      ∀ pairs m', (enter r.body (scope.enter.defineVariables pairs) m').1 ≠ .tooDeep) :
    (executeStatement enter scope m st).outcome ≠ .tooDeep := by
  obtain ⟨callee, p, args, rfl⟩ | ⟨m', hx, -⟩ | ⟨name, p, -, hx⟩ :=
    executeStatement_cases enter scope m st
  · rw [executeStatement_call]
    cases callCase scope callee args with
    | unknown hc =>
      rw [callWith_unknown hc]
      nofun
    | argument hc ha =>
      rw [callWith_argument hc ha]
      nofun
    | builtin hc ha =>
      rw [callWith_builtin hc ha, Machine.callBuiltin_eq]
      dsimp only
      split <;> nofun
    | arity hc ha hl =>
      rw [callWith_arity hc ha hl]
      nofun
    | routine hc ha hl =>
      rw [callWith_routine hc ha hl]
      exact h callee p args _ rfl (Scope.callee?_routine.mp hc) _ _
  · rw [hx]
    nofun
  · rw [hx]
    nofun

/-- A block of the program ends if the bodies that it may call do. -/
theorem executeBlock_ends {enter : BodyRunner} {b : Block} (hb : b ⊆ statementsOf program)
    (he : ∀ callee p args r, .expression (.call callee p args) ∈ b →
      DefinesFunction program callee r →
      ∀ scope : Scope, scope.DefinedIn program → ∀ m, (enter r.body scope m).1 ≠ .tooDeep)
    {scope : Scope} (hs : scope.DefinedIn program) (m : Machine) :
    (executeBlock enter b scope m).outcome ≠ .tooDeep := by
  induction b generalizing scope m with
  | nil => nofun
  | cons st b ih =>
    obtain ⟨hst, hb⟩ := List.cons_subset.mp hb
    have hfirst : (executeStatement enter scope m st).outcome ≠ .tooDeep := by
      refine executeStatement_ends fun callee p args r heq hr pairs m' => ?_
      exact he callee p args r (heq ▸ .head _) (hs callee r hr) _ (hs.enter pairs) m'
    by_cases ho : (executeStatement enter scope m st).outcome = .completed
    · rw [executeBlock_cons_of_completed ho]
      refine ih hb (fun callee p args r hcall => ?_) (hs.bind hst) _
      exact he callee p args r (List.mem_cons_of_mem _ hcall)
    · rw [executeBlock_cons_of_ne ho]
      exact hfirst

open scoped Classical in
/-- How many of the program's functions a function leads to. -/
noncomputable def callRank (program : Block) (f : String) : Nat :=
  ((functionNames program).filter (Relation.TransGen (Calls program) f)).card

section Acyclic

variable (hac : ∀ f, ¬ Relation.TransGen (Calls program) f f)
include hac

theorem callRank_lt_of_calls {f g : String} (hg : g ∈ functionNames program)
    (h : Calls program f g) : callRank program g < callRank program f := by
  classical
  -- What `g` leads to, `f` leads to as well, and to `g` besides.
  apply Finset.card_lt_card
  refine Finset.ssubset_iff_subset_ne.mpr ⟨?_, ?_⟩
  · intro k hk
    obtain ⟨hname, hreach⟩ := Finset.mem_filter.mp hk
    exact Finset.mem_filter.mpr ⟨hname, .head h hreach⟩
  · intro heq
    have hmem : g ∈ (functionNames program).filter (Relation.TransGen (Calls program) f) :=
      Finset.mem_filter.mpr ⟨hg, .single h⟩
    rw [← heq] at hmem
    exact hac g (Finset.mem_filter.mp hmem).2

theorem callRank_lt_card {g : String} (hg : g ∈ functionNames program) :
    callRank program g < (functionNames program).card := by
  classical
  apply Finset.card_lt_card
  exact Finset.filter_ssubset.mpr ⟨g, hg, hac g⟩

/-- A block of the program ends with a depth above the ranks of the functions that it calls. -/
theorem execute_ends {depth : Nat} {b : Block} (hb : b ⊆ statementsOf program)
    (hrank : ∀ g p args, .expression (.call g p args) ∈ b → g ∈ functionNames program →
      callRank program g < depth)
    {scope : Scope} (hs : scope.DefinedIn program) (m : Machine) :
    (execute depth b scope m).outcome ≠ .tooDeep := by
  induction depth generalizing b scope m with
  | zero =>
    refine executeBlock_ends hb (fun g p args r hcall hdef => ?_) hs m
    exact absurd (hrank g p args hcall (mem_functionNames hdef)) (Nat.not_lt_zero _)
  | succ depth ih =>
    refine executeBlock_ends hb (fun g p args r hcall hdef scope' hs' m' => ?_) hs m
    refine ih hdef.body_subset (fun k q args' hk hname => ?_) hs' m'
    -- A function that is called from the body of `g` has a lower rank than `g`.
    have hfirst := hrank g p args hcall (mem_functionNames hdef)
    have hnext := callRank_lt_of_calls hac hname ⟨r, q, args', hdef, hk⟩
    omega

end Acyclic

/-- If no function of a program leads to itself, the program ends on every sink. At every moment
the active calls are at most as many as the names under which it defines functions. -/
theorem execute_acyclic (hac : ∀ f, ¬ Relation.TransGen (Calls program) f f) (m : Machine) :
    (∃ r, ExecutesTo program {} m r) ∧
      ∀ names, Active program {} m names → names.length ≤ (functionNames program).card := by
  have hs : Scope.DefinedIn program {} := nofun
  have hd : (execute (functionNames program).card program {} m).outcome ≠ .tooDeep :=
    execute_ends hac (fun st => mem_statementsOf) (fun g p args _ hg => callRank_lt_card hac hg) hs m
  exact ⟨⟨_, hd, _, rfl⟩, fun names hn => hn.length_le hd⟩

end Program

/-- A function that defines another one and calls it, which calls a third one. -/
theorem execute_acyclic_nested :
    (∃ r, ExecutesTo
        [.definition (.function ["ա"] [.expression (.call "տպիր" {} [⟨.identifier, "ա", {}⟩])])
            "գ" {},
          .definition (.function ["ա"]
            [.definition (.function ["ա"] [.expression (.call "գ" {} [⟨.identifier, "ա", {}⟩])])
              "դ" {},
            .expression (.call "դ" {} [⟨.identifier, "ա", {}⟩])]) "ֆ" {},
          .expression (.call "ֆ" {} [⟨.quote, "a", {}⟩])] {} {} r) ∧
      ∀ names, Active
        [.definition (.function ["ա"] [.expression (.call "տպիր" {} [⟨.identifier, "ա", {}⟩])])
            "գ" {},
          .definition (.function ["ա"]
            [.definition (.function ["ա"] [.expression (.call "գ" {} [⟨.identifier, "ա", {}⟩])])
              "դ" {},
            .expression (.call "դ" {} [⟨.identifier, "ա", {}⟩])]) "ֆ" {},
          .expression (.call "ֆ" {} [⟨.quote, "a", {}⟩])] {} {} names → names.length ≤ 3 := by
  let program : Block :=
    [.definition (.function ["ա"] [.expression (.call "տպիր" {} [⟨.identifier, "ա", {}⟩])]) "գ" {},
      .definition (.function ["ա"]
        [.definition (.function ["ա"] [.expression (.call "գ" {} [⟨.identifier, "ա", {}⟩])])
          "դ" {},
        .expression (.call "դ" {} [⟨.identifier, "ա", {}⟩])]) "ֆ" {},
      .expression (.call "ֆ" {} [⟨.quote, "a", {}⟩])]
  have hcalls : ∀ f g, Calls program f g →
      (f = "գ" ∧ g = "տպիր") ∨ (f = "դ" ∧ g = "գ") ∨ (f = "ֆ" ∧ g = "դ") := by
    rintro f g ⟨⟨params, body⟩, p, args, ⟨q, hdef⟩, hcall⟩
    simp only [program, statementsOf, Statement.statements, Expr.statements, List.cons_append,
      List.nil_append, List.append_nil, List.mem_cons, List.not_mem_nil, Statement.definition.injEq,
      Expr.function.injEq, reduceCtorEq, false_or, or_false] at hdef
    rcases hdef with ⟨⟨-, rfl⟩, rfl, -⟩ | ⟨⟨-, rfl⟩, rfl, -⟩ | ⟨⟨-, rfl⟩, rfl, -⟩
    all_goals
      simp only [List.mem_cons, List.not_mem_nil, Statement.expression.injEq, Expr.call.injEq,
        reduceCtorEq, false_or, or_false] at hcall
      simp [hcall.1]
  have hlevel : ∀ f g, Relation.TransGen (Calls program) f g →
      ["ֆ", "դ", "գ", "տպիր"].idxOf f < ["ֆ", "դ", "գ", "տպիր"].idxOf g := by
    intro f g h
    induction h with
    | single h => rcases hcalls _ _ h with ⟨rfl, rfl⟩ | ⟨rfl, rfl⟩ | ⟨rfl, rfl⟩ <;> decide
    | tail _ h ih =>
      refine ih.trans ?_
      rcases hcalls _ _ h with ⟨rfl, rfl⟩ | ⟨rfl, rfl⟩ | ⟨rfl, rfl⟩ <;> decide
  have hcard : (functionNames program).card = 3 := by decide
  have h := execute_acyclic (fun f hf => Nat.lt_irrefl _ (hlevel f f hf)) {}
  rw [hcard] at h
  exact h

end Holov
