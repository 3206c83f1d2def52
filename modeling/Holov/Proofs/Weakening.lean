import Holov.Proofs.FrameEffect

namespace Holov

/-- A frame with further bindings: of names without one, and of no function under the name of a
built-in one. -/
structure Frame.Grows (f f' : Frame) : Prop where
  value : ∀ name v, f.values.lookup name = some v → f'.values.lookup name = some v
  routine : ∀ name r, f.routines.lookup name = some r → f'.routines.lookup name = some r
  builtin : ∀ b : Builtin, f'.routines.lookup b.name = f.routines.lookup b.name

/-- Bindings behind those of a frame add to them. -/
theorem Frame.grows_append (f : Frame) (values : Bindings Value) {routines : Bindings Routine}
    (h : ∀ b : Builtin, routines.lookup b.name = none) :
    f.Grows ⟨f.values ++ values, f.routines ++ routines⟩ := by
  refine ⟨fun name v hv => ?_, fun name r hr => ?_, fun b => ?_⟩
  · rw [List.lookup_append, hv, Option.some_or]
  · rw [List.lookup_append, hr, Option.some_or]
  · rw [List.lookup_append, h b, Option.or_none]

def Scope.GrowsOutermost (s s' : Scope) : Prop :=
  ∃ inner f f', s.frames = inner ++ [f] ∧ s'.frames = inner ++ [f'] ∧ f.Grows f'

/-- Every name that has a value in `s`, or can be called there, has the same meaning in `s'`. -/
structure Scope.Embeds (s s' : Scope) : Prop where
  value : ∀ name v, s.value? name = some v → s'.value? name = some v
  callee : ∀ name target, s.callee? name = some target → s'.callee? name = some target
  depth : s'.depth = s.depth

/-- What is found in a chain is found with more to be found at its end. -/
theorem findSome?_concat {α β : Type} {g : α → Option β} {xs : List α} {x x' : α}
    (h : ∀ b, g x = some b → g x' = some b) {b : β} (hb : (xs ++ [x]).findSome? g = some b) :
    (xs ++ [x']).findSome? g = some b := by
  rw [List.findSome?_append] at hb ⊢
  cases hx : xs.findSome? g with
  | some a =>
    rw [hx] at hb
    exact hb
  | none =>
    rw [hx, Option.none_or, List.findSome?_singleton] at hb
    rw [Option.none_or, List.findSome?_singleton]
    exact h b hb

namespace Scope

theorem callee?_of_routine? {s : Scope} {name : String} {r : Routine}
    (h : s.routine? name = some r) : s.callee? name = some (.routine r) := by
  rw [callee?, h]

theorem callee?_defineFunction (s : Scope) (name other : String) (r : Routine) :
    (s.defineFunction name r).callee? other =
      if name = other then some (.routine r) else s.callee? other := by
  rw [callee?, routine?_defineFunction]
  by_cases hn : name = other
  · rw [if_pos hn, if_pos hn]
  · rw [if_neg hn, if_neg hn, callee?]

theorem GrowsOutermost.embeds {s s' : Scope} (h : s.GrowsOutermost s') : s.Embeds s' := by
  obtain ⟨inner, f, f', hs, hs', hf⟩ := h
  have hroutine : ∀ name r, s.routine? name = some r → s'.routine? name = some r := by
    intro name r hr
    rw [routine?, hs] at hr
    rw [routine?, hs']
    refine findSome?_concat ?_ hr
    exact hf.routine name
  have hbuiltin : ∀ b : Builtin, s'.routine? b.name = s.routine? b.name := by
    intro b
    rw [routine?, routine?, hs, hs', List.findSome?_append, List.findSome?_append,
      List.findSome?_singleton, List.findSome?_singleton, hf.builtin]
  refine ⟨fun name v hv => ?_, fun name target ht => ?_, ?_⟩
  · rw [value?, hs] at hv
    rw [value?, hs']
    refine findSome?_concat ?_ hv
    exact hf.value name
  · cases target with
    | routine r => exact callee?_of_routine? (hroutine name r (callee?_routine.mp ht))
    | builtin b =>
      -- The name is that of a built-in function, so no function was added under it.
      obtain ⟨hr, hb⟩ := callee?_builtin ht
      obtain rfl := Builtin.name_of_ofName? hb
      rw [callee?, hbuiltin b, hr, hb]
      rfl
  · rw [depth, depth, hs, hs', List.length_append, List.length_append]
    rfl

namespace Embeds

variable {s s' : Scope} (h : s.Embeds s')
include h

theorem evaluate {t : Token} {v : Value} (hv : s.evaluate t = .ok v) : s'.evaluate t = .ok v := by
  unfold Scope.evaluate at hv ⊢
  by_cases hk : t.kind = .identifier
  · simp only [hk, if_true] at hv ⊢
    cases hl : s.value? t.text with
    | none =>
      rw [hl] at hv
      cases hv
    | some w =>
      rw [hl] at hv
      rw [h.value _ _ hl]
      exact hv
  · simp only [hk, if_false] at hv ⊢
    exact hv

theorem evaluateAll {args : List Token} {values : List Value}
    (hv : args.mapM s.evaluate = .ok values) : args.mapM s'.evaluate = .ok values := by
  induction args generalizing values with
  | nil => exact hv
  | cons t args ih =>
    rw [evaluateAll_cons] at hv ⊢
    split at hv
    · cases hv
    · cases hv
    · rename_i ht ha
      rw [h.evaluate ht, ih ha]
      exact hv

theorem defineVariable (name : String) (v : Value) :
    (s.defineVariable name v).Embeds (s'.defineVariable name v) := by
  refine ⟨fun other w hw => ?_, h.callee, h.depth⟩
  rw [value?_defineVariable] at hw ⊢
  by_cases hn : name = other
  · rwa [if_pos hn] at hw ⊢
  · rw [if_neg hn] at hw ⊢
    exact h.value other w hw

theorem defineFunction (name : String) (r : Routine) :
    (s.defineFunction name r).Embeds (s'.defineFunction name r) := by
  refine ⟨h.value, fun other target ht => ?_, h.depth⟩
  rw [callee?_defineFunction] at ht ⊢
  by_cases hn : name = other
  · rwa [if_pos hn] at ht ⊢
  · rw [if_neg hn] at ht ⊢
    exact h.callee other target ht

theorem enter (pairs : List (String × Value)) :
    (s.enter.defineVariables pairs).Embeds (s'.enter.defineVariables pairs) := by
  have hstart : s.enter.Embeds s'.enter :=
    ⟨h.value, h.callee, by rw [depth_enter, depth_enter, h.depth]⟩
  unfold defineVariables
  -- The bindings are added to both frames one by one, so the induction is over all pairs of scopes.
  generalize s.enter = inner at hstart ⊢
  generalize s'.enter = inner' at hstart ⊢
  induction pairs generalizing inner inner' with
  | nil => exact hstart
  | cons p pairs ih => exact ih _ _ (hstart.defineVariable p.1 p.2)

end Embeds

end Scope

def RunnersEmbed (enter enter' : BodyRunner) : Prop :=
  ∀ b s s' m, s.Embeds s' → (enter b s m).1 = .completed → enter' b s' m = enter b s m

section Runners

variable {enter enter' : BodyRunner} (he : RunnersEmbed enter enter') {s s' : Scope}
  (h : s.Embeds s')
include he h

theorem callWith_embeds {callee : String} {p : Position} {args : List Token} {m : Machine}
    (hc : (callWith enter s callee p args m).1 = .completed) :
    callWith enter' s' callee p args m = callWith enter s callee p args m := by
  cases callCase s callee args with
  | unknown hf =>
    rw [callWith_unknown hf] at hc
    cases hc
  | argument hf ha =>
    rw [callWith_argument hf ha] at hc
    cases hc
  | builtin hf ha =>
    rw [callWith_builtin hf ha, callWith_builtin (h.callee _ _ hf) (h.evaluateAll ha)]
  | arity hf ha hl =>
    rw [callWith_arity hf ha hl] at hc
    cases hc
  | routine hf ha hl =>
    rw [callWith_routine hf ha hl] at hc ⊢
    rw [callWith_routine (h.callee _ _ hf) (h.evaluateAll ha) hl, h.depth]
    exact he _ _ _ _ (h.enter _) hc

/-- A statement that is completed does the same with more bindings, and keeps them. -/
theorem executeStatement_embeds {st : Statement} {m : Machine}
    (hc : (executeStatement enter s m st).outcome = .completed) :
    (executeStatement enter' s' m st).outcome = .completed ∧
      (executeStatement enter' s' m st).machine = (executeStatement enter s m st).machine ∧
      (s.bind st).Embeds (s'.bind st) := by
  cases st with
  | definition e name p =>
    cases e with
    | value t =>
      rw [executeStatement] at hc
      cases hv : s.evaluate t with
      | error e =>
        rw [hv] at hc
        cases hc
      | ok v =>
        simp only [executeStatement, Scope.bind, hv, h.evaluate hv, h.depth, true_and]
        exact h.defineVariable name v
    | function params body =>
      simp only [executeStatement, Scope.bind, h.depth, true_and]
      exact h.defineFunction name ⟨params, body⟩
    | call callee q args => exact ⟨rfl, rfl, h⟩
  | expression e =>
    cases e with
    | value t => exact ⟨rfl, rfl, h⟩
    | function params body => exact ⟨rfl, rfl, h⟩
    | call callee p args =>
      have hcall := callWith_embeds he h hc
      rw [executeStatement_call, executeStatement_call, hcall]
      exact ⟨hc, rfl, h⟩

theorem executeBlock_embeds {b : Block} {m : Machine}
    (hc : (executeBlock enter b s m).outcome = .completed) :
    (executeBlock enter' b s' m).outcome = .completed ∧
      (executeBlock enter' b s' m).machine = (executeBlock enter b s m).machine ∧
      (executeBlock enter b s m).scope.Embeds (executeBlock enter' b s' m).scope := by
  induction b generalizing s s' m with
  | nil => exact ⟨rfl, rfl, h⟩
  | cons st b ih =>
    have hfirst := completed_of_cons hc
    obtain ⟨ho, hm, hb⟩ := executeStatement_embeds he h hfirst
    rw [executeBlock_cons_of_completed hfirst] at hc ⊢
    rw [executeBlock_cons_of_completed ho, hm]
    exact ih hb hc

end Runners

theorem runBody_embeds (depth : Nat) : RunnersEmbed (runBody depth) (runBody depth) := by
  induction depth with
  | zero =>
    intro b s s' m h hc
    cases hc
  | succ depth ih =>
    intro b s s' m h hc
    obtain ⟨ho, hm, -⟩ := executeBlock_embeds ih h hc
    exact Prod.ext (ho.trans hc.symm) hm

/-- A block that is completed is so with further bindings in the outermost frame, and does the same
to the world: it writes the same bytes and the same log. What it leaves in its scope is there
too. -/
theorem execute_grown {scope scope' : Scope} (h : scope.GrowsOutermost scope') {b : Block}
    {m : Machine} {x : Executed} (hx : ExecutesTo b scope m x) (hc : x.outcome = .completed) :
    ∃ y, ExecutesTo b scope' m y ∧ y.outcome = .completed ∧ y.machine = x.machine ∧
      x.scope.Embeds y.scope := by
  obtain ⟨-, depth, rfl⟩ := hx
  obtain ⟨ho, hm, hs⟩ := executeBlock_embeds (runBody_embeds depth) h.embeds hc
  refine ⟨execute depth b scope' m, ⟨?_, depth, rfl⟩, ho, hm, hs⟩
  rw [execute, ho]
  intro hn
  cases hn

/-- A block that defines, in a frame inside of the outermost one, names which were added there. -/
theorem execute_grown_redefined :
    ∃ y, ExecutesTo
        [.definition (.value ⟨.quote, "c", {}⟩) "գ" {},
          .definition (.function ["ե"] [.expression (.call "ֆ" {} [⟨.identifier, "ե", {}⟩])]) "դ" {},
          .expression (.call "դ" {} [⟨.identifier, "գ", {}⟩])]
        ⟨{ values := [("ա", .text "a")] },
          [⟨[("գ", .boolean true), ("բ", .boolean false)],
            [("ֆ", ⟨["բ"], [.expression (.call "տպիր" {} [⟨.identifier, "բ", {}⟩,
              ⟨.identifier, "ա", {}⟩])]⟩), ("դ", ⟨[], []⟩)]⟩]⟩ {} y ∧
      y.outcome = .completed ∧ y.machine.sink.written = #[99, 44, 32, 97, 10] := by
  let b : Block := [.definition (.value ⟨.quote, "c", {}⟩) "գ" {},
    .definition (.function ["ե"] [.expression (.call "ֆ" {} [⟨.identifier, "ե", {}⟩])]) "դ" {},
    .expression (.call "դ" {} [⟨.identifier, "գ", {}⟩])]
  let outermost : Frame := { routines := [("ֆ", ⟨["բ"], [.expression (.call "տպիր" {}
    [⟨.identifier, "բ", {}⟩, ⟨.identifier, "ա", {}⟩])]⟩)] }
  let scope : Scope := ⟨{ values := [("ա", .text "a")] }, [outermost]⟩
  let grown : Frame := ⟨outermost.values ++ [("գ", .boolean true), ("բ", .boolean false)],
    outermost.routines ++ [("դ", ⟨[], []⟩)]⟩
  have hframe : outermost.Grows grown := outermost.grows_append _ fun f => by cases f; rfl
  have hgrown : scope.GrowsOutermost ⟨scope.frame, [grown]⟩ :=
    ⟨[scope.frame], outermost, grown, rfl, rfl, hframe⟩
  have ho : (execute 2 b scope {}).outcome = .completed := by decide +kernel
  have hw : (execute 2 b scope {}).machine.sink.written = #[99, 44, 32, 97, 10] := by
    decide +kernel
  have hx : ExecutesTo b scope {} (execute 2 b scope {}) := ⟨by rw [ho]; simp, 2, rfl⟩
  obtain ⟨y, hy, hc, hm, -⟩ := execute_grown hgrown hx ho
  exact ⟨y, hy, hc, by rw [hm, hw]⟩

end Holov
