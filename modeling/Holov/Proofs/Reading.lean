import Holov.Proofs.Grammar

/-!
Parsing token by token. What the parser has to know about the tokens behind it is small: the
function words whose bodies are open, and where it stands in the statement that it reads. So its
answer can be found by a machine that takes one token at a time and looks at the end of the input
only when it is there.
-/
namespace Holov

inductive Stage where
  /-- A statement may start. -/
  | start
  /-- An expression has ended, and it may be named. -/
  | ended
  /-- The value that opens an expression has been read, with the values joined to it. -/
  | joined (first : Token) (marked : Bool) (values : List Token)
  /-- A separator has been read behind these values. -/
  | joining (first : Token) (marked : Bool) (values : List Token)
  /-- The parameter word has been read behind the names of parameters. -/
  | parameters (names : List Token)
  /-- Arguments of a call have been read behind its callee. -/
  | arguments
  /-- A separator has been read behind the arguments. -/
  | enumerating
  /-- The naming word has been read. -/
  | naming
deriving DecidableEq, Repr, Inhabited

/-- What is missing if the input ends here. -/
def Stage.awaits? : Stage → Option Expectation
  | joining _ _ _ | enumerating => some .valueAfterSeparator
  | parameters _ => some .functionAfterParameter
  | naming => some .nameAfterNaming
  | start | ended | joined _ _ _ | arguments => none

structure Reading where
  /-- The function words of the bodies that are open, the innermost first. -/
  bodies : List Token := []
  stage : Stage := .start
  /-- Where a case ending leads to, if one may follow. -/
  ending? : Option Stage := none
deriving DecidableEq, Repr, Inhabited

def Reading.starts (bodies : List Token) (t : Token) : Except ParseError Reading :=
  if t.kind = .endFunction then
    match bodies with
    | [] => .error (.unexpected t .statement)
    | _ :: outer => .ok { bodies := outer, stage := .ended }
  else if t.kind.isValue then
    .ok { bodies, stage := .joined t false [], ending? := some (.joined t true []) }
  else .error (.unexpected t .value)

def Reading.follows (bodies : List Token) (t : Token) : Except ParseError Reading :=
  if t.kind = .naming then .ok { bodies, stage := .naming } else starts bodies t

def Stage.step (bodies : List Token) (t : Token) : Stage → Except ParseError Reading
  | start => Reading.starts bodies t
  | ended => Reading.follows bodies t
  | joined first marked values =>
    if t.kind = .separator then .ok { bodies, stage := .joining first marked values }
    else if marked then
      if t.kind = .identifier then .ok { bodies, stage := .ended } else Reading.follows bodies t
    else if t.kind = .parameter then .ok { bodies, stage := .parameters (values ++ [first]) }
    else if t.kind.isValue then .ok { bodies, stage := .arguments, ending? := some .arguments }
    else Reading.follows bodies t
  | joining first marked values =>
    if t.kind.isValue then
      .ok { bodies, stage := .joined first marked (values ++ [t]),
            ending? := some (.joined first marked (values ++ [t])) }
    else .error (.unexpected t .valueAfterSeparator)
  | parameters names =>
    if t.kind = .function then do
      -- The body is open only if all of the parameters are names.
      let _ ← names.mapM Parser.parameterName
      return { bodies := t :: bodies }
    else .error (.unexpected t .functionAfterParameter)
  | arguments =>
    if t.kind = .separator then .ok { bodies, stage := .enumerating } else Reading.follows bodies t
  | enumerating =>
    if t.kind.isValue then .ok { bodies, stage := .arguments, ending? := some .arguments }
    else .error (.unexpected t .valueAfterSeparator)
  | naming =>
    if t.kind = .identifier then .ok { bodies } else .error (.unexpected t .nameAfterNaming)

namespace Reading

def step (r : Reading) (t : Token) : Except ParseError Reading :=
  match r.ending? with
  | none => r.stage.step r.bodies t
  | some stage =>
    if t.kind = .caseEnding then .ok { bodies := r.bodies, stage } else r.stage.step r.bodies t

theorem step_of_ne {r : Reading} {t : Token} (h : t.kind ≠ .caseEnding) :
    r.step t = r.stage.step r.bodies t := by
  unfold step
  split
  · rfl
  · exact if_neg h

def finish (r : Reading) (last? : Option Token) : Except ParseError Unit :=
  match r.stage.awaits? with
  | some expected => .error (.endOfInput expected ((last?.map Token.position).getD {}))
  | none =>
    match r.bodies with
    | [] => .ok ()
    | word :: _ => .error (.unclosedBody word.position)

def answer (r : Reading) (c : Cursor Token) : Except ParseError Unit := do
  let r ← c.ahead.foldlM step r
  r.finish (c.ahead.getLast?.or c.last?)

theorem answer_nil (r : Reading) (last? : Option Token) :
    r.answer ⟨last?, []⟩ = r.finish last? := rfl

theorem answer_cons (r : Reading) (last? : Option Token) (t : Token) (ts : List Token) :
    r.answer ⟨last?, t :: ts⟩ = r.step t >>= fun r => r.answer ⟨some t, ts⟩ := by
  have hlast : (t :: ts).getLast?.or last? = ts.getLast?.or (some t) := by
    rw [List.getLast?_cons]
    cases ts.getLast? <;> rfl
  rw [answer, List.foldlM_cons, hlast]
  cases r.step t <;> rfl

/-- Readings that do the same with the next token and the end of the input are alike. -/
theorem answer_congr {r r' : Reading} {c : Cursor Token}
    (hs : ∀ t ∈ c.ahead.head?, r.step t = r'.step t) (hf : r.finish = r'.finish) :
    r.answer c = r'.answer c := by
  obtain ⟨last?, _ | ⟨t, ts⟩⟩ := c
  · rw [answer_nil, answer_nil, hf]
  · rw [answer_cons, answer_cons, hs t rfl]

end Reading

namespace Parser
open Reading Grammar

variable {c : Cursor Token} {r : Reading}

theorem answer_takeIf? {p : Token → Bool} {s : c.Read Token} (h : c.takeIf? p = some s) :
    r.answer c = r.step s.result >>= fun r => r.answer s.next := by
  obtain ⟨last?, _ | ⟨t, ts⟩⟩ := c
  · simp at h
  · rw [Cursor.takeIf?_cons] at h
    split at h
    · cases h
      exact answer_cons r last? t ts
    · cases h

/-- Where something else was expected, the machine fails as the parser does. -/
theorem answer_unmet {expected : Expectation}
    (hs : ∀ t ∈ c.ahead.head?, r.step t = .error (.unexpected t expected))
    (hf : r.stage.awaits? = some expected) : r.answer c = .error (unmet c expected) := by
  obtain ⟨last?, _ | ⟨t, ts⟩⟩ := c
  · rw [answer_nil, finish, hf]
    rfl
  · rw [answer_cons, hs t rfl]
    rfl

theorem answer_operand? {o : c.Read Operand} (h : operand? c = some o) {bodies : List Token}
    {unmarked marked : Stage}
    (hs : r.step o.result.token = .ok ⟨bodies, unmarked, some marked⟩) :
    r.answer c = answer ⟨bodies, if o.result.marked then marked else unmarked, none⟩ o.next := by
  obtain ⟨v, hv, he⟩ := Option.map_eq_some_iff.mp h
  rw [answer_takeIf? hv]
  split at he
  · rename_i e hc
    cases he
    have hs : r.step v.result = _ := hs
    have hk := (takeKind?_eq_some hc).1
    rw [hs, ok_bind, answer_takeIf? hc]
    simp only [step, hk, if_true]
    rfl
  · rename_i hc
    cases he
    have hs : r.step v.result = _ := hs
    rw [hs, ok_bind]
    refine answer_congr (fun t ht => ?_) rfl
    exact step_of_ne (takeKind?_eq_none hc t ht)

theorem answer_operand {expected : Expectation} {bodies : List Token}
    {unmarked marked : Token → Stage}
    (hs : ∀ t, t.kind.isValue → r.step t = .ok ⟨bodies, unmarked t, some (marked t)⟩)
    (hn : operand? c = none → r.answer c = .error (unmet c expected)) :
    r.answer c = operand expected c >>= fun o => answer
      ⟨bodies, if o.result.marked then marked o.result.token else unmarked o.result.token, none⟩
      o.next := by
  unfold operand
  split
  · rename_i o ho
    exact answer_operand? ho (hs _ (operand?_sound ho).isValue)
  · rename_i ho
    exact hn ho

section Joined

variable {bodies : List Token} {S T : List Token → Stage}

/-- Values behind separators are read in two stages: `S` behind a value and `T` behind a
separator. -/
theorem answer_joined
    (hseparator : ∀ vs t, t.kind = .separator → (S vs).step bodies t = .ok ⟨bodies, T vs, none⟩)
    (hvalue : ∀ vs t, t.kind.isValue →
      (T vs).step bodies t = .ok ⟨bodies, S (vs ++ [t]), some (S (vs ++ [t]))⟩)
    (hother : ∀ vs t, t.kind.isValue = false →
      (T vs).step bodies t = .error (.unexpected t .valueAfterSeparator))
    (hend : ∀ vs, (T vs).awaits? = some .valueAfterSeparator) (vs : List Token) :
    answer ⟨bodies, S vs, none⟩ c =
      joined c >>= fun j => answer ⟨bodies, S (vs ++ j.values), none⟩ j.next := by
  fun_induction joined c generalizing vs with
  | case1 c hs => rw [ok_bind, List.append_nil]
  | case2 c s hs ih =>
    have hk := (takeKind?_eq_some hs).1
    have hstep : step ⟨bodies, S vs, none⟩ s.result = .ok ⟨bodies, T vs, none⟩ :=
      hseparator vs s.result hk
    rw [answer_takeIf? hs, hstep, ok_bind]
    have hunmet : operand? s.next = none → answer ⟨bodies, T vs, none⟩ s.next =
        .error (unmet s.next .valueAfterSeparator) := by
      intro hn
      refine answer_unmet (fun t ht => hother vs t ?_) (hend vs)
      simpa using operand?_eq_none hn t ht
    rw [answer_operand (r := ⟨bodies, T vs, none⟩) (hvalue vs) hunmet]
    cases operand .valueAfterSeparator s.next with
    | error e => rfl
    | ok v =>
      simp only [ok_bind, ite_self]
      rw [ih v]
      cases joined v.next with
      | error e => rfl
      | ok more =>
        rw [ok_bind, List.append_assoc]
        rfl

end Joined

theorem answer_requireKind {bodies : List Token} {stage : Stage} {kind : Kind}
    {expected : Expectation} (hs : ∀ t, t.kind ≠ kind →
      stage.step bodies t = .error (.unexpected t expected))
    (hend : stage.awaits? = some expected) :
    answer ⟨bodies, stage, none⟩ c = requireKind kind expected c >>= fun s =>
      stage.step bodies s.result >>= fun r => r.answer s.next := by
  unfold requireKind
  split
  · rename_i s ht
    exact answer_takeIf? ht
  · rename_i ht
    exact answer_unmet (fun t hm => hs t (takeKind?_eq_none ht t hm)) hend

theorem notNext_separator {ts vs rest : List Token} (h : Enumeration ts vs rest) :
    NotNext (· = .separator) rest := by
  induction h with
  | done hn => exact hn
  | more hs ho hm ih => exact ih

section Bodies

variable {bodies : List Token}

/-- An expression has ended where the next token does not continue it. -/
theorem answer_ended {stage : Stage}
    (hs : ∀ t ∈ c.ahead.head?, stage.step bodies t = Reading.follows bodies t)
    (hend : stage.awaits? = none) :
    answer ⟨bodies, stage, none⟩ c = answer ⟨bodies, .ended, none⟩ c := by
  refine answer_congr hs ?_
  funext last?
  simp only [finish, hend]
  rfl

theorem answer_values (first : Token) (marked : Bool) :
    answer ⟨bodies, .joined first marked [], none⟩ c = joined c >>= fun j =>
      answer ⟨bodies, .joined first marked j.values, none⟩ j.next := by
  refine answer_joined (S := .joined first marked) (T := .joining first marked) ?_ ?_ ?_ ?_ []
  · intro vs t hk
    exact if_pos hk
  · intro vs t hv
    exact if_pos hv
  · intro vs t hv
    exact if_neg (by simp [hv])
  · exact fun vs => rfl

theorem answer_arguments :
    answer ⟨bodies, .arguments, none⟩ c = joined c >>= fun j =>
      answer ⟨bodies, .arguments, none⟩ j.next := by
  refine answer_joined (S := fun _ => .arguments) (T := fun _ => .enumerating) ?_ ?_ ?_ ?_ []
  · intro vs t hk
    exact if_pos hk
  · intro vs t hv
    exact if_pos hv
  · intro vs t hv
    exact if_neg (by simp [hv])
  · exact fun vs => rfl

def AnswersBodies (bodies : List Token) {n : Nat} (body : BodyReader n) : Prop :=
  ∀ word d h, answer ⟨word :: bodies, .start, none⟩ d =
    body word.position d h >>= fun b => answer ⟨bodies, .ended, none⟩ b.next

variable {body : BodyReader c.ahead.length}

/-- The value that opens an expression. -/
theorem answer_first {t : Token} (ht : c.peek? = some t) (hk : t.kind ≠ .endFunction) :
    answer ⟨bodies, .start, none⟩ c = operand .value c >>= fun o =>
      answer ⟨bodies, .joined o.result.token o.result.marked [], none⟩ o.next := by
  have hopens : ∀ t : Token, t.kind.isValue → step ⟨bodies, .start, none⟩ t =
      .ok ⟨bodies, .joined t false [], some (.joined t true [])⟩ := by
    intro t hv
    exact (if_neg (kind_ne_of_isValue hv rfl)).trans (if_pos hv)
  have hunmet : operand? c = none →
      answer ⟨bodies, .start, none⟩ c = .error (unmet c .value) := by
    intro hn
    obtain ⟨last?, _ | ⟨u, us⟩⟩ := c
    · cases ht
    · cases ht
      have hv := operand?_eq_none hn t rfl
      have hs : step ⟨bodies, .start, none⟩ t = .error (.unexpected t .value) :=
        (if_neg hk).trans (if_neg hv)
      rw [answer_cons, hs]
      rfl
  rw [answer_operand (r := ⟨bodies, .start, none⟩) hopens hunmet]
  congr 1
  funext o
  cases o.result.marked <;> rfl

/-- The parameters of a function are looked at where its body starts. -/
theorem answer_parameters (names : List Token) :
    answer ⟨bodies, .parameters names, none⟩ c =
      requireKind .function .functionAfterParameter c >>= fun word =>
        names.mapM parameterName >>= fun _ =>
          answer ⟨word.result :: bodies, .start, none⟩ word.next := by
  have hother : ∀ t : Token, t.kind ≠ .function → (Stage.parameters names).step bodies t =
      .error (.unexpected t .functionAfterParameter) := fun t ht => if_neg ht
  rw [answer_requireKind hother rfl]
  cases hw : requireKind .function .functionAfterParameter c with
  | error e => rfl
  | ok word =>
    have hk := (requireKind_sound hw).1
    simp only [ok_bind, Stage.step, hk, if_true]
    cases names.mapM parameterName <;> rfl

theorem answer_expression (hbody : AnswersBodies bodies body) {t : Token} (ht : c.peek? = some t)
    (hk : t.kind ≠ .endFunction) :
    answer ⟨bodies, .start, none⟩ c =
      expression c body >>= fun e => answer ⟨bodies, .ended, none⟩ e.next := by
  rw [answer_first ht hk, expression]
  cases operand .value c with
  | error e => rfl
  | ok first =>
    rw [ok_bind, ok_bind, answer_values]
    cases hj : joined first.next with
    | error e => rfl
    | ok rest =>
      rw [ok_bind, ok_bind]
      -- The machine is now in one stage, whichever branch the parser takes.
      have hsep := notNext_separator (joined_sound _ hj)
      dsimp only
      split
      · rename_i hm
        rw [hm]
        split
        · rename_i callee hc
          have hk := (takeKind?_eq_some hc).1
          rw [answer_takeIf? hc]
          simp only [step, Stage.step, hk, reduceCtorEq, if_false, if_true, ok_bind]
          rfl
        · rename_i hc
          refine answer_ended (fun t ht => ?_) rfl
          exact (if_neg (hsep t ht)).trans (if_neg (takeKind?_eq_none hc t ht))
      · rename_i hm
        rw [eq_false_of_ne_true hm]
        split
        · rename_i p hp
          have hk := (takeKind?_eq_some hp).1
          rw [answer_takeIf? hp]
          simp only [step, Stage.step, hk, reduceCtorEq, if_false, if_true, ok_bind]
          rw [answer_parameters]
          cases requireKind .function .functionAfterParameter p.next with
          | error e => rfl
          | ok word =>
            rw [ok_bind, ok_bind]
            cases (rest.values ++ [first.result.token]).mapM parameterName with
            | error e => rfl
            | ok params =>
              have hlt : word.next.ahead.length < c.ahead.length :=
                Nat.lt_trans word.shorter (Nat.lt_trans p.shorter
                  (Nat.lt_of_le_of_lt rest.notLonger first.shorter))
              refine (hbody word.result word.next hlt).trans ?_
              rw [ok_bind]
              cases body word.result.position word.next hlt <;> rfl
        · rename_i hp
          have hparam := takeKind?_eq_none hp
          split
          · rename_i arg ha
            have hv := (operand?_sound ha).isValue
            have hstep : step ⟨bodies, .joined first.result.token false rest.values, none⟩
                arg.result.token = .ok ⟨bodies, .arguments, some .arguments⟩ := by
              refine (if_neg (kind_ne_of_isValue hv rfl)).trans ?_
              exact (if_neg (kind_ne_of_isValue hv rfl)).trans (if_pos hv)
            rw [answer_operand? ha hstep, ite_self, answer_arguments]
            cases hr : joined arg.next with
            | error e => rfl
            | ok more =>
              have hsep := notNext_separator (joined_sound _ hr)
              exact answer_ended (fun t ht => if_neg (hsep t ht)) rfl
          · rename_i ha
            refine answer_ended (fun t ht => ?_) rfl
            have hv := operand?_eq_none ha t ht
            exact (if_neg (hsep t ht)).trans ((if_neg (hparam t ht)).trans (if_neg hv))

theorem answer_statement (hbody : AnswersBodies bodies body) {t : Token} (ht : c.peek? = some t)
    (hk : t.kind ≠ .endFunction) :
    answer ⟨bodies, .start, none⟩ c =
      statement c body >>= fun s => answer ⟨bodies, .start, none⟩ s.next := by
  rw [answer_expression hbody ht hk, statement]
  cases expression c body with
  | error e => rfl
  | ok e =>
    rw [ok_bind, ok_bind]
    split
    · rename_i hn
      refine answer_congr (fun t ht => ?_) rfl
      exact if_neg (takeKind?_eq_none hn t ht)
    · rename_i as hn
      have hstep : step ⟨bodies, .ended, none⟩ as.result = .ok ⟨bodies, .naming, none⟩ :=
        if_pos (takeKind?_eq_some hn).1
      have hother : ∀ u : Token, u.kind ≠ .identifier →
          Stage.naming.step bodies u = .error (.unexpected u .nameAfterNaming) :=
        fun u hu => if_neg hu
      rw [answer_takeIf? hn, hstep, ok_bind, answer_requireKind hother rfl]
      cases hi : requireKind .identifier .nameAfterNaming as.next with
      | error e => rfl
      | ok name =>
        have hname : Stage.naming.step bodies name.result = .ok ⟨bodies, .start, none⟩ :=
          if_pos (requireKind_sound hi).1
        rw [ok_bind, hname]
        rfl

end Bodies

/-- The machine closes a body where the parser does. -/
theorem answer_body (p : Position) (c : Cursor Token) {word : Token} (hp : word.position = p)
    (bodies : List Token) :
    answer ⟨word :: bodies, .start, none⟩ c =
      body p c >>= fun b => answer ⟨bodies, .ended, none⟩ b.next := by
  fun_induction body p c generalizing word bodies with
  | case1 p c hn =>
    obtain ⟨last?, _ | ⟨t, ts⟩⟩ := c
    · subst hp
      rfl
    · cases hn
  | case2 p c t hn close hc =>
    have hclose : step ⟨word :: bodies, .start, none⟩ close.result = .ok ⟨bodies, .ended, none⟩ :=
      if_pos (takeKind?_eq_some hc).1
    rw [answer_takeIf? hc, hclose]
    rfl
  | case3 p c t hn hc ihs ih =>
    have hk : t.kind ≠ .endFunction := takeKind?_eq_none hc t hn
    -- An inner body is read while this one stays open.
    have hbodies : AnswersBodies (n := c.ahead.length) (word :: bodies) fun p d _ => body p d :=
      fun inner d h => ihs inner.position d h rfl (word :: bodies)
    rw [answer_statement hbodies hn hk]
    cases statement c fun p d _ => body p d with
    | error e => rfl
    | ok s =>
      rw [ok_bind, ok_bind, ih s hp bodies]
      cases body p s.next <;> rfl

theorem answer_program (c : Cursor Token) :
    answer ⟨[], .start, none⟩ c = (program c).map fun _ => () := by
  fun_induction program c with
  | case1 c hn =>
    obtain ⟨last?, _ | ⟨t, ts⟩⟩ := c
    · rfl
    · cases hn
  | case2 c t hn hk =>
    obtain ⟨last?, _ | ⟨u, us⟩⟩ := c
    · cases hn
    · cases hn
      have hstray : step ⟨[], .start, none⟩ t = .error (.unexpected t .statement) := if_pos hk
      rw [answer_cons, hstray]
      rfl
  | case3 c t hn hk ih =>
    have hbodies : AnswersBodies (n := c.ahead.length) [] fun p d _ => body p d :=
      fun word d _ => answer_body word.position d rfl []
    rw [answer_statement hbodies hn hk]
    cases statement c fun p d _ => body p d with
    | error e => rfl
    | ok s =>
      rw [ok_bind, ok_bind, ih s]
      cases program s.next <;> rfl

end Parser

/-- The parser answers as the machine does, token by token. -/
theorem parse_eq_answer (ts : List Token) :
    (parse ts).map (fun _ => ()) =
      ts.foldlM Reading.step {} >>= fun r => r.finish ts.getLast? := by
  rw [parse, ← Parser.answer_program, Reading.answer, Cursor.ofList]
  simp only [Option.or_none]

end Holov
