import Holov.Proofs.Execution.Call

namespace Holov

/-- The variables and the functions that are visible, each name with its latest binding first. -/
structure FlatScope where
  values : Bindings Value := []
  routines : Bindings Routine := []

namespace FlatScope

def bindValue (s : FlatScope) (name : String) (v : Value) : FlatScope :=
  { s with values := (name, v) :: s.values }

def bindRoutine (s : FlatScope) (name : String) (r : Routine) : FlatScope :=
  { s with routines := (name, r) :: s.routines }

def bindValues (s : FlatScope) (pairs : List (String × Value)) : FlatScope :=
  pairs.foldl (fun s p => s.bindValue p.1 p.2) s

def evaluate (s : FlatScope) (t : Token) : Except RuntimeError Value :=
  match if t.kind = .identifier then s.values.lookup t.text else Value.ofLiteral? t with
  | some v => .ok v
  | none => .error (.unboundName t.text t.position)

def callee? (s : FlatScope) (name : String) : Option Callee :=
  match s.routines.lookup name with
  | some r => some (.routine r)
  | none => (Builtin.ofName? name).map .builtin

end FlatScope

/-- What a statement comes to: it is over, or it ends the block, or a body is to be run. -/
inductive Action where
  | next (s : FlatScope) (sink : Sink)
  | stop (e : RuntimeError) (sink : Sink)
  | enter (body : Block) (inner : FlatScope)

namespace FlatScope

def call (s : FlatScope) (sink : Sink) (callee : String) (p : Position) (args : List Token) :
    Action :=
  match s.callee? callee with
  | none => .stop (.unknownFunction callee p) sink
  | some target =>
    match args.mapM s.evaluate with
    | .error e => .stop e sink
    | .ok values =>
      match target with
      | .builtin f =>
        let (ok, sink') := sink.writeText (f.output values)
        if ok then .next s sink' else .stop (.output sink.refusal p) sink'
      | .routine r =>
        if r.params.length = values.length then
          .enter r.body (s.bindValues (r.params.zip values))
        else .stop (.wrongArity callee r.params.length values.length p) sink

def action (s : FlatScope) (sink : Sink) : Statement → Action
  | .definition (.value t) name _ =>
    match s.evaluate t with
    | .error e => .stop e sink
    | .ok v => .next (s.bindValue name v) sink
  | .definition (.function params body) name _ => .next (s.bindRoutine name ⟨params, body⟩) sink
  | .definition (.call _ _ _) _ _ => .next s sink
  | .expression (.call callee p args) => s.call sink callee p args
  | .expression (.value _) | .expression (.function _ _) => .next s sink

/-- `Runs b s sink o s' sink'`: the block, run with the lists `s`, ends as `o` with the lists `s'`.
Behind a call the lists are those from before it, however its body ended. -/
inductive Runs : Block → FlatScope → Sink → Outcome RuntimeError → FlatScope → Sink → Prop
  | nil {s : FlatScope} {sink : Sink} : Runs [] s sink .completed s sink
  | next {st : Statement} {rest : Block} {s s₁ s' : FlatScope} {sink sink₁ sink' : Sink}
      {o : Outcome RuntimeError} (ha : s.action sink st = .next s₁ sink₁)
      (hr : Runs rest s₁ sink₁ o s' sink') : Runs (st :: rest) s sink o s' sink'
  | stop {st : Statement} {rest : Block} {s : FlatScope} {sink sink' : Sink} {e : RuntimeError}
      (ha : s.action sink st = .stop e sink') : Runs (st :: rest) s sink (.failed e) s sink'
  | enter {st : Statement} {rest body : Block} {s inner inner' s' : FlatScope}
      {sink sink₁ sink' : Sink} {o : Outcome RuntimeError}
      (ha : s.action sink st = .enter body inner)
      (hb : Runs body inner sink .completed inner' sink₁)
      (hr : Runs rest s sink₁ o s' sink') : Runs (st :: rest) s sink o s' sink'
  | enterFailed {st : Statement} {rest body : Block} {s inner inner' : FlatScope}
      {sink sink' : Sink} {e : RuntimeError} (ha : s.action sink st = .enter body inner)
      (hb : Runs body inner sink (.failed e) inner' sink') :
      Runs (st :: rest) s sink (.failed e) s sink'

/-- The lists and the chain give every name the same meaning. -/
structure Agrees (s : FlatScope) (scope : Scope) : Prop where
  value : ∀ name, s.values.lookup name = scope.value? name
  routine : ∀ name, s.routines.lookup name = scope.routine? name

end FlatScope

theorem Bindings.lookup_flatMap {α β : Type} (f : β → Bindings α) (bs : List β) (name : String) :
    (bs.flatMap f).lookup name = bs.findSome? fun b => (f b).lookup name := by
  induction bs with
  | nil => rfl
  | cons b bs ih =>
    rw [List.flatMap_cons, List.lookup_append, ih, List.findSome?_cons]
    cases (f b).lookup name <;> rfl

def Scope.flatten (scope : Scope) : FlatScope :=
  ⟨scope.frames.flatMap Frame.values, scope.frames.flatMap Frame.routines⟩

theorem Scope.flatten_agrees (scope : Scope) : scope.flatten.Agrees scope :=
  ⟨Bindings.lookup_flatMap Frame.values scope.frames,
    Bindings.lookup_flatMap Frame.routines scope.frames⟩

namespace FlatScope.Agrees

variable {s : FlatScope} {scope : Scope} (h : s.Agrees scope)
include h

theorem evaluate_eq : s.evaluate = scope.evaluate := by
  funext t
  have hv := h.value t.text
  unfold FlatScope.evaluate Scope.evaluate
  generalize s.values.lookup t.text = found? at hv ⊢
  subst hv
  rfl

theorem callee?_eq (name : String) : s.callee? name = scope.callee? name := by
  have hr := h.routine name
  unfold FlatScope.callee? Scope.callee?
  generalize s.routines.lookup name = found? at hr ⊢
  subst hr
  rfl

/-- Shadowing and overwriting a binding come to the same. -/
theorem bindValue (name : String) (v : Value) :
    (s.bindValue name v).Agrees (scope.defineVariable name v) where
  value other := by
    rw [Scope.value?_defineVariable, ← h.value]
    exact Bindings.lookup_cons name other v s.values
  routine := h.routine

theorem bindRoutine (name : String) (r : Routine) :
    (s.bindRoutine name r).Agrees (scope.defineFunction name r) where
  value := h.value
  routine other := by
    rw [Scope.routine?_defineFunction, ← h.routine]
    exact Bindings.lookup_cons name other r s.routines

theorem enter : s.Agrees scope.enter :=
  ⟨h.value, h.routine⟩

theorem bindValues (pairs : List (String × Value)) :
    (s.bindValues pairs).Agrees (scope.defineVariables pairs) := by
  induction pairs generalizing s scope with
  | nil => exact h
  | cons p pairs ih => exact ih (h.bindValue p.1 p.2)

end FlatScope.Agrees

/-- The statement does to a chain of frames what the action says about lists, however bodies are
run. -/
def Action.Describes (scope : Scope) (m : Machine) (st : Statement) : Action → Prop
  | next s sink => ∃ scope' m', s.Agrees scope' ∧ m'.sink = sink ∧
      ∀ enter, executeStatement enter scope m st = ⟨.completed, scope', m'⟩
  | stop e sink => ∃ m', m'.sink = sink ∧
      ∀ enter, executeStatement enter scope m st = ⟨.failed e, scope, m'⟩
  | enter body inner => ∃ scope' m', inner.Agrees scope' ∧ m'.sink = m.sink ∧
      ∀ enter, executeStatement enter scope m st =
        ⟨(enter body scope' m').1, scope, (enter body scope' m').2⟩

namespace FlatScope

theorem call_describes {s : FlatScope} {scope : Scope} (h : s.Agrees scope) (m : Machine)
    (callee : String) (p : Position) (args : List Token) :
    (s.call m.sink callee p args).Describes scope m (.expression (.call callee p args)) := by
  simp only [call, h.callee?_eq, h.evaluate_eq]
  cases callCase scope callee args with
  | unknown hc =>
    simp only [hc]
    refine ⟨m, rfl, fun enter => ?_⟩
    rw [executeStatement_call, callWith_unknown hc]
  | argument hc ha =>
    simp only [hc, ha]
    refine ⟨m, rfl, fun enter => ?_⟩
    rw [executeStatement_call, callWith_argument hc ha]
  | @builtin f values hc ha =>
    simp only [hc, ha]
    have hx : ∀ enter, executeStatement enter scope m (.expression (.call callee p args)) =
        ⟨(m.callBuiltin f callee p values).1, scope, (m.callBuiltin f callee p values).2⟩ := by
      intro enter
      rw [executeStatement_call, callWith_builtin hc ha]
    simp only [Machine.callBuiltin_eq] at hx
    split
    · rename_i hok
      exact ⟨scope, _, h, rfl, fun enter => by rw [hx, if_pos hok]⟩
    · rename_i hok
      exact ⟨_, rfl, fun enter => by rw [hx, if_neg hok]⟩
  | arity hc ha hl =>
    simp only [hc, ha, if_neg hl]
    refine ⟨m, rfl, fun enter => ?_⟩
    rw [executeStatement_call, callWith_arity hc ha hl]
  | @routine r values hc ha hl =>
    simp only [hc, ha, if_pos hl]
    refine ⟨_, m.note (.functionCalled callee p (scope.depth + 1)),
      h.enter.bindValues (r.params.zip values), rfl, fun enter => ?_⟩
    rw [executeStatement_call, callWith_routine hc ha hl]

theorem action_describes {s : FlatScope} {scope : Scope} (h : s.Agrees scope) (m : Machine)
    (st : Statement) : (s.action m.sink st).Describes scope m st := by
  cases st with
  | definition e name p =>
    cases e with
    | value t =>
      rw [action, h.evaluate_eq]
      cases hv : scope.evaluate t with
      | error e => exact ⟨m, rfl, fun enter => by rw [executeStatement, hv]⟩
      | ok v =>
        exact ⟨_, m.note _, h.bindValue name v, rfl, fun enter => by rw [executeStatement, hv]⟩
    | function params body => exact ⟨_, m.note _, h.bindRoutine name _, rfl, fun enter => rfl⟩
    | call callee q args => exact ⟨scope, m.note _, h, rfl, fun enter => rfl⟩
  | expression e =>
    cases e with
    | value t => exact ⟨scope, m, h, rfl, fun enter => rfl⟩
    | function params body => exact ⟨scope, m, h, rfl, fun enter => rfl⟩
    | call callee p args => exact call_describes h m callee p args

theorem describes_of_action {s : FlatScope} {scope : Scope} {sink : Sink} {st : Statement}
    {a : Action} {m : Machine} (h : s.Agrees scope) (hm : m.sink = sink)
    (ha : s.action sink st = a) : a.Describes scope m st := by
  rw [← ha, ← hm]
  exact action_describes h m st

def Follows (enter : BodyRunner) : Prop :=
  ∀ b s scope m, Agrees s scope → (enter b scope m).1 ≠ .tooDeep →
    ∃ s', Runs b s m.sink (enter b scope m).1 s' (enter b scope m).2.sink

theorem executeBlock_runs {enter : BodyRunner} (he : Follows enter) {b : Block} {s : FlatScope}
    {scope : Scope} {m : Machine} (h : s.Agrees scope)
    (hd : (executeBlock enter b scope m).outcome ≠ .tooDeep) :
    ∃ s', Runs b s m.sink (executeBlock enter b scope m).outcome s'
        (executeBlock enter b scope m).machine.sink ∧
      s'.Agrees (executeBlock enter b scope m).scope := by
  induction b generalizing s scope m with
  | nil => exact ⟨s, .nil, h⟩
  | cons st rest ih =>
    rw [executeBlock_cons] at hd ⊢
    cases ha : s.action m.sink st with
    | next s₁ sink₁ =>
      obtain ⟨scope₁, m₁, h₁, rfl, hx⟩ := describes_of_action h rfl ha
      rw [hx, Executed.andThen_completed] at hd ⊢
      obtain ⟨s', hr, hs⟩ := ih h₁ hd
      exact ⟨s', .next ha hr, hs⟩
    | stop e sink' =>
      obtain ⟨m₁, rfl, hx⟩ := describes_of_action h rfl ha
      rw [hx]
      exact ⟨s, .stop ha, h⟩
    | enter body inner =>
      obtain ⟨scope₁, m₁, h₁, hm, hx⟩ := describes_of_action h rfl ha
      rw [hx] at hd ⊢
      have hb := he body inner scope₁ m₁ h₁
      rw [hm] at hb
      rcases hbody : enter body scope₁ m₁ with ⟨_ | e | _, m₂⟩
      · rw [hbody] at hd hb
        obtain ⟨inner', hb⟩ := hb (by simp)
        obtain ⟨s', hr, hs⟩ := ih h hd
        exact ⟨s', .enter ha hb hr, hs⟩
      · rw [hbody] at hb
        obtain ⟨inner', hb⟩ := hb (by simp)
        exact ⟨s, .enterFailed ha hb, h⟩
      · rw [hbody] at hd
        exact absurd rfl hd

theorem runBody_follows (depth : Nat) : Follows (runBody depth) := by
  induction depth with
  | zero => exact fun b s scope m _ hd => absurd rfl hd
  | succ depth ih =>
    intro b s scope m h hd
    obtain ⟨s', hr, -⟩ := executeBlock_runs ih h hd
    exact ⟨s', hr⟩

/-- An execution that ends is a run with lists. -/
theorem runs_of_executesTo {b : Block} {s : FlatScope} {scope : Scope} {m : Machine} {r : Executed}
    (h : s.Agrees scope) (hx : ExecutesTo b scope m r) :
    ∃ s', Runs b s m.sink r.outcome s' r.machine.sink ∧ s'.Agrees r.scope := by
  obtain ⟨hd, depth, rfl⟩ := hx
  exact executeBlock_runs (runBody_follows depth) h hd

/-- A run with lists is an execution. -/
theorem Runs.executesTo {b : Block} {s s' : FlatScope} {sink sink' : Sink}
    {o : Outcome RuntimeError} (hr : Runs b s sink o s' sink') {scope : Scope} {m : Machine}
    (h : s.Agrees scope) (hm : m.sink = sink) :
    ∃ r, ExecutesTo b scope m r ∧ r.outcome = o ∧ r.machine.sink = sink' ∧
      s'.Agrees r.scope := by
  -- The induction is on the run, so each body that it enters is executed with a depth of its own.
  induction hr generalizing scope m with
  | nil => exact ⟨⟨.completed, scope, m⟩, ⟨by simp, 0, rfl⟩, rfl, hm, h⟩
  | next ha _ ih =>
    obtain ⟨scope₁, m₁, h₁, hm₁, hx⟩ := describes_of_action h hm ha
    obtain ⟨r, hr, ho⟩ := ih h₁ hm₁
    exact ⟨r, executesTo_cons_completed ⟨0, hx _⟩ hr, ho⟩
  | @stop _ rest _ _ _ e ha =>
    obtain ⟨m₁, hm₁, hx⟩ := describes_of_action h hm ha
    exact ⟨⟨.failed e, scope, m₁⟩, executesTo_cons_failed rest ⟨0, hx _⟩, rfl, hm₁, h⟩
  | enter ha _ _ ihb ih =>
    obtain ⟨scope₁, m₁, h₁, hm₁, hx⟩ := describes_of_action h hm ha
    obtain ⟨rb, hb, hob, hsb, -⟩ := ihb h₁ (hm₁.trans hm)
    obtain ⟨depth, hd⟩ := hb.runBody
    obtain ⟨r, hr, ho⟩ := ih h hsb
    refine ⟨r, executesTo_cons_completed ⟨depth, ?_⟩ hr, ho⟩
    rw [hx, hd, hob]
  | @enterFailed _ rest _ _ _ _ _ _ e ha _ ihb =>
    obtain ⟨scope₁, m₁, h₁, hm₁, hx⟩ := describes_of_action h hm ha
    obtain ⟨rb, hb, hob, hsb, -⟩ := ihb h₁ (hm₁.trans hm)
    obtain ⟨depth, hd⟩ := hb.runBody
    refine ⟨⟨.failed e, scope, rb.machine⟩, executesTo_cons_failed rest ⟨depth, ?_⟩, rfl, hsb, h⟩
    rw [hx, hd, hob]

end FlatScope

/-- Two chains give every name the same meaning. Their frames may be different. -/
structure Scope.Alike (scope scope' : Scope) : Prop where
  value : ∀ name, scope.value? name = scope'.value? name
  routine : ∀ name, scope.routine? name = scope'.routine? name

theorem FlatScope.Agrees.of_alike {s : FlatScope} {scope scope' : Scope} (h : s.Agrees scope)
    (ha : scope.Alike scope') : s.Agrees scope' :=
  ⟨fun name => (h.value name).trans (ha.value name),
    fun name => (h.routine name).trans (ha.routine name)⟩

theorem FlatScope.Agrees.alike {s : FlatScope} {scope scope' : Scope} (h : s.Agrees scope)
    (h' : s.Agrees scope') : scope.Alike scope' :=
  ⟨fun name => (h.value name).symm.trans (h'.value name),
    fun name => (h.routine name).symm.trans (h'.routine name)⟩

theorem ExecutesTo.of_alike {b : Block} {scope scope' : Scope} {m m' : Machine} {r : Executed}
    (ha : scope.Alike scope') (hm : m'.sink = m.sink) (h : ExecutesTo b scope m r) :
    ∃ r', ExecutesTo b scope' m' r' ∧ r'.outcome = r.outcome ∧
      r'.machine.sink = r.machine.sink ∧ r.scope.Alike r'.scope := by
  have hf := scope.flatten_agrees
  obtain ⟨s', hr, hs⟩ := FlatScope.runs_of_executesTo hf h
  obtain ⟨r', hx, ho, hsink, hs'⟩ := hr.executesTo (hf.of_alike ha) hm
  exact ⟨r', hx, ho, hsink, hs.alike hs'⟩

/-- A block ends in a chain of frames if and only if it ends with lists that agree with the chain,
and then both end alike and agree again. So no block can tell two chains apart in which every name
has the same meaning. -/
theorem execute_flat (b : Block) :
    (∀ s scope, FlatScope.Agrees s scope → ∀ m : Machine,
      ((∃ r, ExecutesTo b scope m r) ↔ ∃ o s' sink', FlatScope.Runs b s m.sink o s' sink') ∧
      ∀ r o s' sink', ExecutesTo b scope m r → FlatScope.Runs b s m.sink o s' sink' →
        o = r.outcome ∧ sink' = r.machine.sink ∧ s'.Agrees r.scope) ∧
    (∀ scope, ∃ s, FlatScope.Agrees s scope) ∧
    ∀ scope scope', Scope.Alike scope scope' → ∀ m m' : Machine, m'.sink = m.sink →
      ∀ r, ExecutesTo b scope m r → ∃ r', ExecutesTo b scope' m' r' ∧ r'.outcome = r.outcome ∧
        r'.machine.sink = r.machine.sink ∧ r.scope.Alike r'.scope := by
  refine ⟨fun s scope h m => ⟨⟨?_, ?_⟩, ?_⟩, fun scope => ⟨_, scope.flatten_agrees⟩,
    fun scope scope' ha m m' hm r hx => hx.of_alike ha hm⟩
  · rintro ⟨r, hx⟩
    obtain ⟨s', hr, -⟩ := FlatScope.runs_of_executesTo h hx
    exact ⟨_, s', _, hr⟩
  · rintro ⟨o, s', sink', hr⟩
    obtain ⟨r, hx, -⟩ := hr.executesTo h rfl
    exact ⟨r, hx⟩
  · intro r o s' sink' hx hr
    obtain ⟨r', hx', ho, hsink, hs⟩ := hr.executesTo h rfl
    obtain rfl := hx.unique hx'
    exact ⟨ho.symm, hsink.symm, hs⟩

/-- A call in a chain whose outer frame has another value of the name that is printed. -/
theorem execute_flat_shadowed :
    ∃ s', FlatScope.Runs [.expression (.call "գ" {} [⟨.quote, "b", {}⟩])]
        ⟨[("ա", .text "a"), ("ա", .text "c")],
          [("գ", ⟨["բ"], [.expression (.call "տպիր" {} [⟨.identifier, "ա", {}⟩])]⟩)]⟩
        {} .completed s' { written := #[97, 10] } := by
  let b : Block := [.expression (.call "գ" {} [⟨.quote, "b", {}⟩])]
  let scope : Scope := ⟨⟨[("ա", .text "a")], []⟩, [⟨[("ա", .text "c")],
    [("գ", ⟨["բ"], [.expression (.call "տպիր" {} [⟨.identifier, "ա", {}⟩])]⟩)]⟩]⟩
  have ho : (execute 1 b scope {}).outcome = .completed := by decide +kernel
  have hs : (execute 1 b scope {}).machine.sink = { written := #[97, 10] } := by decide +kernel
  have hx : ExecutesTo b scope {} (execute 1 b scope {}) := ⟨by rw [ho]; nofun, 1, rfl⟩
  obtain ⟨hends, hsame⟩ := (execute_flat b).1 _ scope scope.flatten_agrees {}
  obtain ⟨o, s', sink', hr⟩ := hends.mp ⟨_, hx⟩
  obtain ⟨hout, hsink, -⟩ := hsame _ _ _ _ hx hr
  rw [hout, hsink, ho, hs] at hr
  exact ⟨s', hr⟩

end Holov
