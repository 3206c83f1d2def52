import Holov.Proofs.Execution.Parts
import Holov.Proofs.Grammar.Following

namespace Holov

/-- A value behind the one that opens an expression. A case ending may follow it, which has no
meaning there. -/
structure Argument where
  token : Token
  ending? : Option Token := none
  isValue : token.kind.isValue
  isEnding : ∀ e ∈ ending?, e.kind = .caseEnding

structure JoinedArgument extends Argument where
  separator : Token
  isSeparator : separator.kind = .separator

def Argument.tokens (a : Argument) : List Token :=
  a.token :: a.ending?.toList

def JoinedArgument.tokens (a : JoinedArgument) : List Token :=
  a.separator :: a.toArgument.tokens

def writeJoined (as : List JoinedArgument) : List Token :=
  as.flatMap JoinedArgument.tokens

def valuesOf (as : List JoinedArgument) : List Token :=
  as.map fun a => a.token

/-- `a₁`-ending `և a₂ … և aₙ f`: the object of the call is in front. -/
structure MarkedCall where
  object : Token
  ending : Token
  joined : List JoinedArgument
  callee : Token
  isValue : object.kind.isValue
  isEnding : ending.kind = .caseEnding
  isIdentifier : callee.kind = .identifier

/-- `f և v₁ … և vₖ w₁ և w₂ … և wₘ`: the callee is in front, and one argument has no separator. -/
structure UnmarkedCall where
  callee : Token
  joined : List JoinedArgument
  next : Argument
  further : List JoinedArgument
  isIdentifier : callee.kind = .identifier

/-- `p₁ և p₂ … և pₙ չափոցով գործառույթ … »`, with a body that can be parsed. -/
structure FunctionLiteral where
  first : Token
  joined : List JoinedArgument
  parameterWord : Token
  functionWord : Token
  bodyTokens : List Token
  close : Token
  body : Block
  isName : ∀ t ∈ valuesOf joined ++ [first], t.kind = .identifier
  isParameter : parameterWord.kind = .parameter
  isFunction : functionWord.kind = .function
  isClose : close.kind = .endFunction
  isBody : parse bodyTokens = .ok body

namespace MarkedCall

def tokens (c : MarkedCall) : List Token :=
  c.object :: c.ending :: (writeJoined c.joined ++ [c.callee])

def written (c : MarkedCall) : List Token :=
  c.object :: valuesOf c.joined

/-- The arguments in the order of the call: what is in front comes last. -/
def args (c : MarkedCall) : List Token :=
  valuesOf c.joined ++ [c.object]

def call (c : MarkedCall) : Expr :=
  .call c.callee.text c.callee.position c.args

end MarkedCall

namespace UnmarkedCall

def tokens (c : UnmarkedCall) : List Token :=
  c.callee :: (writeJoined c.joined ++ (c.next.tokens ++ writeJoined c.further))

def args (c : UnmarkedCall) : List Token :=
  valuesOf c.joined ++ c.next.token :: valuesOf c.further

end UnmarkedCall

namespace FunctionLiteral

def tokens (l : FunctionLiteral) : List Token :=
  l.first :: (writeJoined l.joined ++
    l.parameterWord :: l.functionWord :: (l.bodyTokens ++ [l.close]))

def written (l : FunctionLiteral) : List Token :=
  l.first :: valuesOf l.joined

def params (l : FunctionLiteral) : List String :=
  (valuesOf l.joined ++ [l.first]).map Token.text

end FunctionLiteral

def Parser.ReadsAs (ts : List Token) (e : Expr) (rest : List Token) : Prop :=
  ∀ c : Cursor Token, c.ahead = ts ++ rest →
    ∃ r, expression c (fun p d _ => body p d) = .ok r ∧ r.result = e ∧ r.next.ahead = rest

/-- The input ends here, or goes on with a value, the naming word or the end of a body. -/
def EndsCall (rest : List Token) : Prop :=
  ∀ t ∈ rest.head?, t.kind.isValue ∨ t.kind = .naming ∨ t.kind = .endFunction

open Grammar

theorem Grammar.Expression.readsAs {ts rest : List Token} {e : Expr}
    (h : Expression (ts ++ rest) e rest) : Parser.ReadsAs ts e rest := by
  intro c hc
  rw [← hc] at h
  exact expression_complete (readsBodies _) h

section Reading

theorem EndsCall.stops {rest : List Token} (h : EndsCall rest) : Stops rest := by
  cases rest with
  | nil => exact nofun
  | cons t rest =>
    rcases h t rfl with hv | hk | hk
    · exact stops_of_isValue hv rest
    · exact stops_cons (by simp [hk]) (by simp [hk]) rest
    · exact stops_cons (by simp [hk]) (by simp [hk]) rest

theorem Argument.derives (a : Argument) {rest : List Token} (hn : NotNext (· = .caseEnding) rest) :
    ∃ marked, FullValue (a.tokens ++ rest) ⟨a.token, marked⟩ rest := by
  obtain ⟨t, _ | e, hv, he⟩ := a
  · exact ⟨false, .unmarked hv hn⟩
  · exact ⟨true, .marked hv (he e rfl)⟩

theorem notNext_writeJoined (as : List JoinedArgument) {rest : List Token} (hn : Stops rest) :
    NotNext (· = .caseEnding) (writeJoined as ++ rest) :=
  notNext_flatMap (fun a _ => a.isSeparator) hn

theorem writeJoined_derives (as : List JoinedArgument) {rest : List Token} (hn : Stops rest) :
    Enumeration (writeJoined as ++ rest) (valuesOf as) rest :=
  enumeration_flatMap (fun a _ => a.isSeparator) hn fun a _ _ hr => a.toArgument.derives hr

theorem MarkedCall.derives (c : MarkedCall) (rest : List Token) :
    Expression (c.tokens ++ rest) c.call rest := by
  have hcallee : c.callee.kind.isValue := by
    rw [c.isIdentifier]
    rfl
  have hj := writeJoined_derives c.joined (stops_of_isValue hcallee rest)
  have h := Expression.markedCall (.marked c.isValue c.isEnding) rfl hj c.isIdentifier
  simpa [MarkedCall.tokens, MarkedCall.call, MarkedCall.args] using h

theorem UnmarkedCall.derives (c : UnmarkedCall) {rest : List Token} (hn : Stops rest) :
    Expression (c.tokens ++ rest) (.call c.callee.text c.callee.position c.args) rest := by
  have hcallee : c.callee.kind.isValue := by
    rw [c.isIdentifier]
    rfl
  -- The argument without a separator ends the enumeration in front of it.
  have hnext : Stops (c.next.tokens ++ (writeJoined c.further ++ rest)) :=
    stops_of_isValue c.next.isValue _
  have hf := FullValue.unmarked hcallee (notNext_writeJoined c.joined hnext)
  have hj := writeJoined_derives c.joined hnext
  obtain ⟨marked, ha⟩ := c.next.derives (notNext_writeJoined c.further hn)
  have h := Expression.call hf rfl hj ha (writeJoined_derives c.further hn)
  simpa [UnmarkedCall.tokens, UnmarkedCall.args] using h

theorem FunctionLiteral.derives (l : FunctionLiteral) (rest : List Token) :
    Expression (l.tokens ++ rest) (.function l.params l.body) rest := by
  have hfirst : l.first.kind.isValue := by
    rw [l.isName l.first (by simp)]
    rfl
  have hword : Stops (l.parameterWord :: l.functionWord ::
      (l.bodyTokens ++ l.close :: rest)) := by
    apply stops_cons <;> simp [l.isParameter]
  have hf := FullValue.unmarked hfirst (notNext_writeJoined l.joined hword)
  have hj := writeJoined_derives l.joined hword
  have hb := (parse_eq_ok_iff.mp l.isBody).closed l.isClose rest
  have h := Expression.function hf rfl hj l.isParameter l.isFunction l.isName hb l.isClose
  simpa [FunctionLiteral.tokens, FunctionLiteral.params] using h

end Reading

/-- `inner` is a new frame inside of the caller's scope. It binds these names and nothing else, and
of two bindings of a name it has the later one. -/
structure Scope.Entered (scope : Scope) (bindings : List (String × Value)) (inner : Scope) :
    Prop where
  outer : inner.outer = scope.frames
  routines : inner.frame.routines = []
  bound : ∀ before name v after, bindings = before ++ (name, v) :: after →
    name ∉ after.map Prod.fst → inner.frame.values.lookup name = some v
  unbound : ∀ name, name ∉ bindings.map Prod.fst → inner.frame.values.lookup name = none

namespace Scope

/-- Variables do not touch the functions of the frame, or the other frames. -/
theorem defineVariables_rest (s : Scope) (pairs : List (String × Value)) :
    (s.defineVariables pairs).outer = s.outer ∧
      (s.defineVariables pairs).frame.routines = s.frame.routines := by
  induction pairs generalizing s with
  | nil => exact ⟨rfl, rfl⟩
  | cons p pairs ih => exact ih (s.defineVariable p.1 p.2)

theorem lookup_defineVariables_of_notMem (s : Scope) {pairs : List (String × Value)}
    {name : String} (h : name ∉ pairs.map Prod.fst) :
    (s.defineVariables pairs).frame.values.lookup name = s.frame.values.lookup name := by
  induction pairs generalizing s with
  | nil => rfl
  | cons p pairs ih =>
    rw [List.map_cons, List.mem_cons, not_or] at h
    refine (ih (s.defineVariable p.1 p.2) h.2).trans ?_
    exact (Bindings.lookup_assign _ _ _ _).trans (if_neg (Ne.symm h.1))

/-- Of two bindings of a name the later one holds. -/
theorem lookup_defineVariables (s : Scope) (before : List (String × Value)) (name : String)
    (v : Value) {after : List (String × Value)} (h : name ∉ after.map Prod.fst) :
    (s.defineVariables (before ++ (name, v) :: after)).frame.values.lookup name = some v := by
  rw [defineVariables, List.foldl_append, List.foldl_cons]
  refine (lookup_defineVariables_of_notMem _ h).trans ?_
  exact (Bindings.lookup_assign _ _ _ _).trans (if_pos rfl)

/-- The scope in which a called body starts is entered with its parameters. -/
theorem entered_defineVariables (s : Scope) (bindings : List (String × Value)) :
    s.Entered bindings (s.enter.defineVariables bindings) where
  outer := (defineVariables_rest s.enter bindings).1
  routines := (defineVariables_rest s.enter bindings).2
  bound := by
    rintro before name v after rfl h
    exact lookup_defineVariables s.enter before name v h
  unbound := fun name h => lookup_defineVariables_of_notMem s.enter h

/-- Where no name is bound twice, each binding is the last one of its name. -/
theorem exists_append_of_nodup {bindings : List (String × Value)}
    (hn : (bindings.map Prod.fst).Nodup) {name : String} {v : Value} (hm : (name, v) ∈ bindings) :
    ∃ before after, bindings = before ++ (name, v) :: after ∧ name ∉ after.map Prod.fst := by
  obtain ⟨before, after, rfl⟩ := List.append_of_mem hm
  refine ⟨before, after, rfl, ?_⟩
  rw [List.map_append, List.map_cons] at hn
  exact (List.nodup_cons.mp (List.nodup_append.mp hn).2.1).1

/-- Where no name is bound twice, each has its own value. -/
theorem Entered.lookup_of_mem {scope inner : Scope} {bindings : List (String × Value)}
    (h : scope.Entered bindings inner) (hn : (bindings.map Prod.fst).Nodup) {name : String}
    {v : Value} (hm : (name, v) ∈ bindings) : inner.frame.values.lookup name = some v := by
  obtain ⟨before, after, hb, hlast⟩ := exists_append_of_nodup hn hm
  exact h.bound before name v after hb hlast

/-- A name and an argument in one place are a name and its value in that place. -/
theorem evaluateAll_mem_zip {scope : Scope} {names args : List Token} {values : List Value}
    (h : args.mapM scope.evaluate = .ok values) {p a : Token} (hm : (p, a) ∈ names.zip args) :
    ∃ v, scope.evaluate a = .ok v ∧ (p.text, v) ∈ (names.map Token.text).zip values := by
  induction args generalizing names values with
  | nil => simp at hm
  | cons b args ih =>
    cases names with
    | nil => simp at hm
    | cons q names =>
      rw [evaluateAll_cons] at h
      split at h
      · cases h
      · cases h
      · rename_i v vs hb ha
        cases h
        rw [List.zip_cons_cons, List.mem_cons] at hm
        rw [List.map_cons, List.zip_cons_cons]
        rcases hm with hm | hm
        · cases hm
          exact ⟨v, hb, List.mem_cons_self⟩
        · obtain ⟨w, hw, hmem⟩ := ih ha hm
          exact ⟨w, hw, List.mem_cons_of_mem _ hmem⟩

end Scope

theorem executeBlock_singleton (enter : BodyRunner) (st : Statement) (scope : Scope)
    (m : Machine) : executeBlock enter [st] scope m = executeStatement enter scope m st := by
  rw [executeBlock_cons]
  rcases executeStatement enter scope m st with ⟨_ | e | _, scope', m'⟩ <;> rfl

/-- A call of a function ends as its body does, in the scope that it was made in. -/
theorem executesTo_call_iff {scope : Scope} {callee : String} {p : Position} {args : List Token}
    {routine : Routine} {values : List Value} (hr : scope.routine? callee = some routine)
    (ha : args.mapM scope.evaluate = .ok values) (hl : routine.params.length = values.length)
    {m : Machine} {r : Executed} :
    ExecutesTo [.expression (.call callee p args)] scope m r ↔
      ∃ x, ExecutesTo routine.body (scope.enter.defineVariables (routine.params.zip values))
        (m.note (.functionCalled callee p (scope.depth + 1))) x ∧
        r = ⟨x.outcome, scope, x.machine⟩ := by
  generalize hinner : scope.enter.defineVariables (routine.params.zip values) = inner
  generalize hnoted : m.note (.functionCalled callee p (scope.depth + 1)) = noted
  have hcall : ∀ depth, execute depth [.expression (.call callee p args)] scope m =
      ⟨(runBody depth routine.body inner noted).1, scope,
        (runBody depth routine.body inner noted).2⟩ := by
    intro depth
    rw [execute, executeBlock_singleton, executeStatement_call,
      callWith_routine (Scope.callee?_routine.mpr hr) ha hl, hinner, hnoted]
  constructor
  · rintro ⟨ho, depth, rfl⟩
    rw [hcall] at ho ⊢
    cases depth with
    | zero => exact absurd rfl ho
    | succ depth => exact ⟨execute depth routine.body inner noted, ⟨ho, depth, rfl⟩, rfl⟩
  · rintro ⟨x, ⟨ho, depth, rfl⟩, rfl⟩
    exact ⟨ho, depth + 1, hcall (depth + 1)⟩

section Parameters

variable {l : FunctionLiteral} {c : MarkedCall} (hn : l.joined.length = c.joined.length)
include hn

/-- What is written in one place belongs together also in the order of the call. -/
theorem mem_zip_of_written {i : Nat} {p a : Token} (hp : l.written[i]? = some p)
    (ha : c.written[i]? = some a) : (p, a) ∈ (valuesOf l.joined ++ [l.first]).zip c.args := by
  have hz : (l.written.zip c.written)[i]? = some (p, a) :=
    List.getElem?_zip_eq_some.mpr ⟨hp, ha⟩
  have hlen : (valuesOf l.joined).length = (valuesOf c.joined).length := by
    simpa [valuesOf] using hn
  rw [MarkedCall.args, List.zip_append hlen, List.mem_append]
  have hm := List.mem_of_getElem? hz
  rw [FunctionLiteral.written, MarkedCall.written, List.zip_cons_cons, List.mem_cons] at hm
  rcases hm with hm | hm
  · exact .inr (by simp [hm])
  · exact .inl hm

theorem length_params {scope : Scope} {values : List Value}
    (ha : c.args.mapM scope.evaluate = .ok values) : l.params.length = values.length := by
  rw [Scope.length_evaluateAll ha]
  simp [FunctionLiteral.params, MarkedCall.args, valuesOf, hn]

end Parameters

/-- A call is read in the same way with its object in front as with its callee in front, wherever
the one argument without a separator stands, and with case endings behind the arguments or without.
A function literal with as many parameters, called by that name, has its body run in a new frame
inside of the caller's scope, in which each parameter has the value of the argument that is written
in its place. Of parameters with one name it is the last in binding order that has its value. -/
theorem call_forms_agree (c : MarkedCall) :
    (∀ rest, Parser.ReadsAs c.tokens c.call rest) ∧
    (∀ u : UnmarkedCall, u.callee = c.callee → u.args = c.args →
      ∀ rest, EndsCall rest → Parser.ReadsAs u.tokens c.call rest) ∧
    ∀ l : FunctionLiteral, l.joined.length = c.joined.length →
      (∀ rest, Parser.ReadsAs l.tokens (.function l.params l.body) rest) ∧
      ∀ scope values, scope.routine? c.callee.text = some ⟨l.params, l.body⟩ →
        c.args.mapM scope.evaluate = .ok values →
        ∃ inner, scope.Entered (l.params.zip values) inner ∧
          (l.params.Nodup → ∀ (i : Nat) (p a : Token), l.written[i]? = some p →
            c.written[i]? = some a →
            ∃ v, scope.evaluate a = .ok v ∧ inner.frame.values.lookup p.text = some v) ∧
          ∀ m r, ExecutesTo [.expression c.call] scope m r ↔
            ∃ x, ExecutesTo l.body inner
                (m.note (.functionCalled c.callee.text c.callee.position (scope.depth + 1))) x ∧
              r = ⟨x.outcome, scope, x.machine⟩ := by
  refine ⟨fun rest => (c.derives rest).readsAs, fun u hf hargs rest hr => ?_, fun l hn => ?_⟩
  · have h := u.derives hr.stops
    rw [hf, hargs] at h
    exact h.readsAs
  · refine ⟨fun rest => (l.derives rest).readsAs, fun scope values hroutine hargs => ?_⟩
    have hlen := length_params hn hargs
    have hentered := scope.entered_defineVariables (l.params.zip values)
    refine ⟨_, hentered, fun hd i p a hp ha => ?_,
      fun m r => executesTo_call_iff hroutine hargs hlen⟩
    obtain ⟨v, hv, hm⟩ := Scope.evaluateAll_mem_zip hargs (mem_zip_of_written hn hp ha)
    refine ⟨v, hv, hentered.lookup_of_mem ?_ hm⟩
    rwa [List.map_fst_zip (Nat.le_of_eq hlen)]

/-- Two arguments, with a case ending behind each, for a function that prints its parameters as they
are written. -/
theorem call_forms_agree_two :
    Parser.ReadsAs [⟨.quote, "a", ⟨2, 1⟩⟩, { kind := .caseEnding }, { kind := .separator },
        ⟨.quote, "b", ⟨2, 8⟩⟩, { kind := .caseEnding }, ⟨.identifier, "ֆ", ⟨2, 13⟩⟩]
      (.call "ֆ" ⟨2, 13⟩ [⟨.quote, "b", ⟨2, 8⟩⟩, ⟨.quote, "a", ⟨2, 1⟩⟩]) [] ∧
    Parser.ReadsAs [⟨.identifier, "ֆ", ⟨2, 13⟩⟩, { kind := .separator }, ⟨.quote, "b", ⟨2, 8⟩⟩,
        ⟨.quote, "a", ⟨2, 1⟩⟩]
      (.call "ֆ" ⟨2, 13⟩ [⟨.quote, "b", ⟨2, 8⟩⟩, ⟨.quote, "a", ⟨2, 1⟩⟩]) [] ∧
    ∃ (inner : Scope) (x : Executed) (m : Machine),
      inner.frame.values.lookup "ա" = some (.text "a") ∧
      inner.frame.values.lookup "բ" = some (.text "b") ∧
      ExecutesTo [.expression (.call "տպիր" ⟨1, 30⟩ [⟨.identifier, "ա", ⟨1, 35⟩⟩,
        ⟨.identifier, "բ", ⟨1, 39⟩⟩])] inner m x ∧
      x.machine.sink.written = #[97, 44, 32, 98, 10] := by
  let b : JoinedArgument := ⟨⟨⟨.quote, "b", ⟨2, 8⟩⟩, some { kind := .caseEnding }, rfl, by simp⟩,
    { kind := .separator }, rfl⟩
  let c : MarkedCall := ⟨⟨.quote, "a", ⟨2, 1⟩⟩, { kind := .caseEnding }, [b],
    ⟨.identifier, "ֆ", ⟨2, 13⟩⟩, rfl, rfl, rfl⟩
  let u : UnmarkedCall := ⟨c.callee, [{ b with ending? := none, isEnding := nofun }],
    ⟨c.object, none, rfl, nofun⟩, [], rfl⟩
  let name : JoinedArgument := ⟨⟨⟨.identifier, "բ", ⟨1, 5⟩⟩, none, rfl, nofun⟩,
    { kind := .separator }, rfl⟩
  let l : FunctionLiteral :=
    { first := ⟨.identifier, "ա", ⟨1, 1⟩⟩
      joined := [name]
      parameterWord := { kind := .parameter }
      functionWord := { kind := .function }
      bodyTokens := [⟨.identifier, "տպիր", ⟨1, 30⟩⟩, ⟨.identifier, "ա", ⟨1, 35⟩⟩,
        { kind := .separator }, ⟨.identifier, "բ", ⟨1, 39⟩⟩]
      close := { kind := .endFunction }
      body := [.expression (.call "տպիր" ⟨1, 30⟩ [⟨.identifier, "ա", ⟨1, 35⟩⟩,
        ⟨.identifier, "բ", ⟨1, 39⟩⟩])]
      isName := by decide
      isParameter := rfl
      isFunction := rfl
      isClose := rfl
      isBody := by with_unfolding_all rfl }
  let scope : Scope := { frame := { routines := [("ֆ", ⟨l.params, l.body⟩)] } }
  obtain ⟨hmarked, hunmarked, hliteral⟩ := call_forms_agree c
  refine ⟨hmarked [], hunmarked u rfl rfl [] nofun, ?_⟩
  obtain ⟨inner, -, hbound, hrun⟩ := (hliteral l rfl).2 scope [.text "b", .text "a"] rfl rfl
  have hdistinct : l.params.Nodup := by decide
  obtain ⟨v, hv, ha⟩ := hbound hdistinct 0 _ _ rfl rfl
  obtain ⟨w, hw, hb⟩ := hbound hdistinct 1 _ _ rfl rfl
  cases hv
  cases hw
  have ho : (execute 1 [.expression c.call] scope {}).outcome = .completed := by decide +kernel
  have hwritten : (execute 1 [.expression c.call] scope {}).machine.sink.written =
      #[97, 44, 32, 98, 10] := by decide +kernel
  have hx : ExecutesTo [.expression c.call] scope {} (execute 1 [.expression c.call] scope {}) :=
    ⟨by rw [ho]; nofun, 1, rfl⟩
  obtain ⟨x, hx, he⟩ := (hrun _ _).mp hx
  rw [he] at hwritten
  exact ⟨inner, x, _, ha, hb, hx, hwritten⟩

end Holov
