import Holov.Proofs.Execution.Simulation
import Holov.Proofs.Provenance
import Mathlib.Logic.Equiv.Basic

namespace Holov

variable (f : String → String)

/-- Of the tokens, identifiers alone are names. -/
def Token.rename (t : Token) : Token :=
  if t.kind = .identifier then { t with text := f t.text } else t

mutual

def Expr.rename : Expr → Expr
  | .value t => .value (t.rename f)
  | .function params body => .function (params.map f) (renameBlock body)
  | .call callee p args => .call (f callee) p (args.map (Token.rename f))

def Statement.rename : Statement → Statement
  | .definition e name p => .definition e.rename (f name) p
  | .expression e => .expression e.rename

def renameBlock : List Statement → List Statement
  | [] => []
  | s :: rest => s.rename :: renameBlock rest

end

def Routine.rename (r : Routine) : Routine :=
  ⟨r.params.map f, renameBlock f r.body⟩

def Frame.rename (frame : Frame) : Frame :=
  ⟨frame.values.map (Prod.map f id), frame.routines.map (Prod.map f (Routine.rename f))⟩

def Scope.rename (s : Scope) : Scope :=
  ⟨s.frame.rename f, s.outer.map (Frame.rename f)⟩

def Callee.rename : Callee → Callee
  | routine r => routine (r.rename f)
  | builtin b => builtin b

def RuntimeError.rename : RuntimeError → RuntimeError
  | unboundName name p => unboundName (f name) p
  | wrongArity name expected found p => wrongArity (f name) expected found p
  | unknownFunction name p => unknownFunction (f name) p
  | output details p => output details p

/-- Different names stay different, and the built-in functions keep theirs. -/
structure IsRenaming : Prop where
  injective : Function.Injective f
  builtin : ∀ b : Builtin, f b.name = b.name

def Expr.Resolvable (x : Expr) : Prop :=
  ∀ t ∈ x.tokens, t.Resolvable

instance (x : Expr) : Decidable x.Resolvable :=
  inferInstanceAs (Decidable (∀ t ∈ x.tokens, t.Resolvable))

variable {f} (hf : IsRenaming f)
include hf

theorem Builtin.ofName?_rename (name : String) : ofName? (f name) = ofName? name := by
  unfold ofName?
  congr 1
  funext b
  rw [← hf.builtin b, Bool.eq_iff_iff, beq_iff_eq, beq_iff_eq, hf.injective.eq_iff, hf.builtin]

namespace Scope

omit hf in
theorem frames_rename (s : Scope) : (s.rename f).frames = s.frames.map (Frame.rename f) := rfl

theorem value?_rename (s : Scope) (name : String) :
    (s.rename f).value? (f name) = s.value? name := by
  rw [value?, frames_rename, List.findSome?_map, value?]
  congr 1
  funext frame
  exact (Bindings.lookup_renamed hf.injective id frame.values name).trans Option.map_id'

theorem routine?_rename (s : Scope) (name : String) :
    (s.rename f).routine? (f name) = (s.routine? name).map (Routine.rename f) := by
  rw [routine?, frames_rename, List.findSome?_map, routine?, List.map_findSome?]
  congr 1
  funext frame
  exact Bindings.lookup_renamed hf.injective (Routine.rename f) frame.routines name

theorem defineVariable_rename (s : Scope) (name : String) (v : Value) :
    (s.defineVariable name v).rename f = (s.rename f).defineVariable (f name) v := by
  simp only [defineVariable, rename, Frame.rename, Bindings.assign_renamed hf.injective, id]

theorem defineFunction_rename (s : Scope) (name : String) (r : Routine) :
    (s.defineFunction name r).rename f = (s.rename f).defineFunction (f name) (r.rename f) := by
  simp only [defineFunction, rename, Frame.rename, Bindings.assign_renamed hf.injective]

theorem defineVariables_rename (s : Scope) (pairs : List (String × Value)) :
    (s.defineVariables pairs).rename f =
      (s.rename f).defineVariables (pairs.map (Prod.map f id)) := by
  induction pairs generalizing s with
  | nil => rfl
  | cons p pairs ih =>
    refine (ih (s.defineVariable p.1 p.2)).trans ?_
    rw [defineVariable_rename hf]
    rfl

theorem evaluate_rename (s : Scope) {t : Token} (ht : t.Resolvable) :
    (s.rename f).evaluate (t.rename f) = (s.evaluate t).mapError (RuntimeError.rename f) := by
  by_cases hk : t.kind = .identifier
  · simp only [evaluate, Token.rename, if_pos hk, value?_rename hf]
    cases s.value? t.text <;> rfl
  · -- A literal is not renamed, so it must not be reported as a name without a value.
    obtain ⟨v, hv⟩ := Option.isSome_iff_exists.mp (ht.resolve_left hk)
    simp only [evaluate, Token.rename, if_neg hk, hv]
    rfl

theorem evaluateAll_rename (s : Scope) {ts : List Token} (ht : ∀ t ∈ ts, t.Resolvable) :
    (ts.map (Token.rename f)).mapM (s.rename f).evaluate =
      (ts.mapM s.evaluate).mapError (RuntimeError.rename f) := by
  induction ts with
  | nil => rfl
  | cons t ts ih =>
    obtain ⟨h₁, h₂⟩ := List.forall_mem_cons.mp ht
    rw [List.map_cons, List.mapM_cons, List.mapM_cons, evaluate_rename hf s h₁, ih h₂]
    cases s.evaluate t with
    | error e => rfl
    | ok v => cases ts.mapM s.evaluate <;> rfl

theorem callee?_rename (s : Scope) (name : String) :
    (s.rename f).callee? (f name) = (s.callee? name).map (Callee.rename f) := by
  unfold callee?
  rw [routine?_rename hf, Builtin.ofName?_rename hf]
  cases s.routine? name with
  | none => cases Builtin.ofName? name <;> rfl
  | some r => rfl

end Scope

omit hf

/-- A block with other names, which asks for no value that it cannot have. -/
def RenamesBlock (f : String → String) (b b' : Block) : Prop :=
  b' = renameBlock f b ∧ ∀ x ∈ partsOf b, x.Resolvable

def RenamesScope (f : String → String) (s s' : Scope) : Prop :=
  s' = s.rename f ∧ s.Within Expr.Resolvable

section Runners

variable {enter enter' : BodyRunner} (hf : IsRenaming f)
  (he : RunnersSimulate (RuntimeError.rename f) (RenamesBlock f) (RenamesScope f) enter enter')
include hf he

theorem callWith_rename {s : Scope} (hs : s.Within Expr.Resolvable) (callee : String)
    (p : Position) {args : List Token} (ht : ∀ t ∈ args, t.Resolvable) {m m' : Machine}
    (hm : m'.sink = m.sink) :
    (callWith enter' (s.rename f) (f callee) p (args.map (Token.rename f)) m').1 =
        (callWith enter s callee p args m).1.mapError (RuntimeError.rename f) ∧
      (callWith enter' (s.rename f) (f callee) p (args.map (Token.rename f)) m').2.sink =
        (callWith enter s callee p args m).2.sink := by
  refine callWith_simulates he ⟨rfl, fun _ _ => rfl, fun _ => rfl⟩ ?_
    (Scope.evaluateAll_rename hf s ht) hm
  rw [Scope.callee?_rename hf s callee]
  cases hc : s.callee? callee with
  | none => exact .unknown
  | some target =>
    cases target with
    | builtin b => exact .builtin b
    | routine r =>
      refine .routine (List.length_map _) ⟨rfl, hs _ _ (Scope.callee?_routine.mp hc)⟩
        fun values => ⟨?_, hs.enter _⟩
      rw [Scope.defineVariables_rename hf, Routine.rename, List.zip_map_left]
      rfl

theorem executeStatement_rename {s : Scope} (hs : s.Within Expr.Resolvable) {st : Statement}
    (hst : ∀ x ∈ st.parts, x.Resolvable) {m m' : Machine} (hm : m'.sink = m.sink) :
    Simulates (RuntimeError.rename f) (RenamesScope f) (executeStatement enter s m st)
      (executeStatement enter' (s.rename f) m' (st.rename f)) := by
  have hw := executeStatement_within hst hs enter m
  cases st with
  | definition e name p =>
    cases e with
    | value t =>
      have ht : t.Resolvable := hst _ (Expr.self_mem_parts _) t (.head _)
      simp only [Statement.rename, Expr.rename, executeStatement, Scope.evaluate_rename hf s ht]
        at hw ⊢
      cases hv : s.evaluate t with
      | error e => exact ⟨rfl, ⟨rfl, hs⟩, hm⟩
      | ok v =>
        rw [hv] at hw
        exact ⟨rfl, ⟨(Scope.defineVariable_rename hf s name v).symm, hw⟩, hm⟩
    | function params body =>
      exact ⟨rfl, ⟨(Scope.defineFunction_rename hf s name ⟨params, body⟩).symm, hw⟩, hm⟩
    | call callee q args => exact ⟨rfl, ⟨rfl, hs⟩, hm⟩
  | expression e =>
    cases e with
    | value t => exact ⟨rfl, ⟨rfl, hs⟩, hm⟩
    | function params body => exact ⟨rfl, ⟨rfl, hs⟩, hm⟩
    | call callee p args =>
      have ht := hst _ (Expr.self_mem_parts _)
      obtain ⟨ho, hsink⟩ := callWith_rename hf he hs callee p ht hm
      exact ⟨ho, ⟨rfl, hs⟩, hsink⟩

theorem executeBlock_rename {b b' : Block} {s s' : Scope} {m m' : Machine}
    (hb : RenamesBlock f b b') (hs : RenamesScope f s s') (hm : m'.sink = m.sink) :
    Simulates (RuntimeError.rename f) (RenamesScope f) (executeBlock enter b s m)
      (executeBlock enter' b' s' m') := by
  obtain ⟨rfl, hb⟩ := hb
  induction b generalizing s s' m m' with
  | nil => exact ⟨rfl, hs, hm⟩
  | cons st b ih =>
    obtain ⟨hst, hb⟩ := forall_partsOf_cons.mp hb
    obtain ⟨rfl, hw⟩ := hs
    rw [renameBlock, executeBlock_cons, executeBlock_cons]
    exact (executeStatement_rename hf he hw hst hm).andThen
      fun s₁ s₁' m₁ m₁' hs₁ hm₁ => ih hs₁ hm₁ hb

end Runners

/-- A block and a scope with other names end if and only if they did before, with the same bytes,
with the other names in the error, and with the scope that has the other names. This is so if no
value is asked of a token that has none, and the program of a source asks for none. -/
theorem execute_rename (hf : IsRenaming f) {b : Block} {scope : Scope}
    (hb : ∀ x ∈ partsOf b, x.Resolvable) (hs : scope.Within Expr.Resolvable) (m : Machine) :
    (∀ x, ExecutesTo b scope m x → ∃ y, ExecutesTo (renameBlock f b) (scope.rename f) m y ∧
      Simulates (RuntimeError.rename f) (fun s s' => s' = s.rename f) x y) ∧
    (∀ y, ExecutesTo (renameBlock f b) (scope.rename f) m y → ∃ x, ExecutesTo b scope m x ∧
      Simulates (RuntimeError.rename f) (fun s s' => s' = s.rename f) x y) ∧
    ∀ source ts program, tokenize source = .ok ts → parse ts = .ok program →
      ∀ x ∈ partsOf program, x.Resolvable := by
  have h : ∀ depth, Simulates (RuntimeError.rename f) (fun s s' => s' = s.rename f)
      (execute depth b scope m) (execute depth (renameBlock f b) (scope.rename f) m) := by
    intro depth
    have hx := execute_simulates
      (fun enter enter' he b b' s s' m m' hb hs hm => executeBlock_rename hf he hb hs hm)
      depth ⟨rfl, hb⟩ ⟨rfl, hs⟩ (rfl : m.sink = m.sink)
    exact hx.imp fun s s' hs => hs.1
  exact ⟨fun x hx => hx.simulated h, fun y hy => hy.simulating h,
    fun source ts program ht hp => resolvable_of_parse ht hp⟩

/-- A variable that is printed beside a name without a value. -/
theorem execute_rename_unbound :
    ∃ y, ExecutesTo
        [.definition (.value ⟨.quote, "բ", {}⟩) "բ" {},
          .expression (.call "տպիր" {} [⟨.identifier, "բ", {}⟩, ⟨.identifier, "ա", {}⟩])]
        {} {} y ∧
      y.outcome = .failed (.unboundName "ա" {}) ∧
      y.scope.value? "բ" = some (.text "բ") := by
  let b : Block := [.definition (.value ⟨.quote, "բ", {}⟩) "ա" {},
    .expression (.call "տպիր" {} [⟨.identifier, "ա", {}⟩, ⟨.identifier, "բ", {}⟩])]
  have hf : IsRenaming (Equiv.swap "ա" "բ") :=
    ⟨Equiv.injective _, fun g => by cases g; decide⟩
  have hb : ∀ x ∈ partsOf b, x.Resolvable := by decide
  have ho : (execute 0 b {} {}).outcome = .failed (.unboundName "բ" {}) := by decide +kernel
  have hx : ExecutesTo b {} {} (execute 0 b {} {}) := ⟨by rw [ho]; nofun, 0, rfl⟩
  obtain ⟨y, hy, hsim⟩ := (execute_rename hf hb Scope.within_empty {}).1 _ hx
  refine ⟨y, hy, ?_, ?_⟩
  · rw [hsim.outcome, ho]
    rfl
  · rw [hsim.scope]
    decide +kernel

end Holov
