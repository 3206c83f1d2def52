import Holov.Program.Parser

namespace Holov.Grammar
open Holov.Parser

def NotNext (p : Kind → Prop) (ts : List Token) : Prop :=
  ∀ t ∈ ts.head?, ¬ p t.kind

inductive FullValue : List Token → Operand → List Token → Prop
  | marked {v e : Token} {rest : List Token} (hv : v.kind.isValue) (he : e.kind = .caseEnding) :
      FullValue (v :: e :: rest) ⟨v, true⟩ rest
  | unmarked {v : Token} {rest : List Token} (hv : v.kind.isValue)
      (hn : NotNext (· = .caseEnding) rest) : FullValue (v :: rest) ⟨v, false⟩ rest

inductive Enumeration : List Token → List Token → List Token → Prop
  | done {rest : List Token} (hn : NotNext (· = .separator) rest) : Enumeration rest [] rest
  | more {s : Token} {ts us rest vs : List Token} {o : Operand} (hs : s.kind = .separator)
      (ho : FullValue ts o us) (hm : Enumeration us vs rest) :
      Enumeration (s :: ts) (o.token :: vs) rest

mutual

inductive Expression : List Token → Expr → List Token → Prop
  -- The marked value is the object of the call, and the last of the arguments.
  | markedCall {ts us rest joined : List Token} {first : Operand} {callee : Token}
      (hf : FullValue ts first us) (hm : first.marked = true)
      (hj : Enumeration us joined (callee :: rest)) (hc : callee.kind = .identifier) :
      Expression ts (.call callee.text callee.position (joined ++ [first.token])) rest
  -- Values that are joined to a bare value are read and dropped.
  | markedValue {ts us rest joined : List Token} {first : Operand}
      (hf : FullValue ts first us) (hm : first.marked = true)
      (hj : Enumeration us joined rest) (hn : NotNext (· = .identifier) rest) :
      Expression ts (.value first.token) rest
  -- The parameter that is written first is bound last.
  | function {ts us vs rest joined : List Token} {first : Operand} {p f close : Token}
      {body : Block} (hf : FullValue ts first us) (hm : first.marked = false)
      (hj : Enumeration us joined (p :: f :: vs)) (hp : p.kind = .parameter)
      (hk : f.kind = .function) (hi : ∀ t ∈ joined ++ [first.token], t.kind = .identifier)
      (hb : Statements vs body (close :: rest)) (hc : close.kind = .endFunction) :
      Expression ts (.function ((joined ++ [first.token]).map Token.text) body) rest
  | call {ts us vs ws rest joined further : List Token} {first next : Operand}
      (hf : FullValue ts first us) (hm : first.marked = false) (hj : Enumeration us joined vs)
      (ha : FullValue vs next ws) (hr : Enumeration ws further rest) :
      Expression ts (.call first.token.text first.token.position
        (joined ++ next.token :: further)) rest
  | value {ts us rest joined : List Token} {first : Operand}
      (hf : FullValue ts first us) (hm : first.marked = false) (hj : Enumeration us joined rest)
      (hn : NotNext (fun k => k = .parameter ∨ k.isValue) rest) :
      Expression ts (.value first.token) rest

inductive Sentence : List Token → Statement → List Token → Prop
  | definition {ts rest : List Token} {e : Expr} {as name : Token}
      (he : Expression ts e (as :: name :: rest)) (ha : as.kind = .naming)
      (hi : name.kind = .identifier) :
      Sentence ts (.definition e name.text name.position) rest
  | expression {ts rest : List Token} {e : Expr} (he : Expression ts e rest)
      (hn : NotNext (· = .naming) rest) : Sentence ts (.expression e) rest

/-- Any number of statements. What may be left over is up to where they stand. -/
inductive Statements : List Token → Block → List Token → Prop
  | nil {rest : List Token} : Statements rest [] rest
  | cons {ts us rest : List Token} {s : Statement} {b : Block} (hs : Sentence ts s us)
      (hb : Statements us b rest) : Statements ts (s :: b) rest

end

def ClosedBody (ts : List Token) (b : Block) (rest : List Token) : Prop :=
  ∃ close, close.kind = .endFunction ∧ Statements ts b (close :: rest)

def Program (ts : List Token) (b : Block) : Prop :=
  Statements ts b []

theorem kind_ne_of_isValue {j k : Kind} (hj : j.isValue) (hk : k.isValue = false) : j ≠ k := by
  rintro rfl
  rw [hj] at hk
  cases hk

theorem notNext_of_isValue {t : Token} {k : Kind} (ts : List Token) (hv : t.kind.isValue)
    (hk : k.isValue = false) : NotNext (· = k) (t :: ts) := by
  intro u hu
  cases hu
  exact kind_ne_of_isValue hv hk

theorem bind_eq_ok {ε α β : Type} {x : Except ε α} {f : α → Except ε β} {b : β}
    (h : (x >>= f) = .ok b) : ∃ a, x = .ok a ∧ f a = .ok b := by
  cases x with
  | error e => cases h
  | ok a => exact ⟨a, rfl, h⟩

theorem ok_bind {ε α β : Type} (a : α) (f : α → Except ε β) : (Except.ok a >>= f) = f a := rfl

theorem FullValue.isValue_head {ts rest : List Token} {o : Operand} (h : FullValue ts o rest) :
    ∃ t us, ts = t :: us ∧ t.kind.isValue := by
  cases h with
  | marked hv he => exact ⟨_, _, rfl, hv⟩
  | unmarked hv hn => exact ⟨_, _, rfl, hv⟩

theorem FullValue.isValue {ts rest : List Token} {o : Operand} (h : FullValue ts o rest) :
    o.token.kind.isValue := by
  cases h <;> assumption

section Readers

variable {c : Cursor Token}

theorem takeIf?_eq_some {p : Token → Bool} {r : c.Read Token} (h : c.takeIf? p = some r) :
    p r.result ∧ c.ahead = r.result :: r.next.ahead := by
  obtain ⟨last, _ | ⟨t, ts⟩⟩ := c
  · simp at h
  · rw [Cursor.takeIf?_cons] at h
    split at h
    · cases h
      exact ⟨by assumption, rfl⟩
    · cases h

theorem takeIf?_eq_none {p : Token → Bool} (h : c.takeIf? p = none) :
    ∀ t ∈ c.ahead.head?, p t = false := by
  obtain ⟨last, _ | ⟨t, ts⟩⟩ := c
  · simp
  · rw [Cursor.takeIf?_cons] at h
    split at h
    · cases h
    · rename_i hp
      simpa using hp

theorem takeIf?_of_cons {p : Token → Bool} {t : Token} {ts : List Token} (hc : c.ahead = t :: ts)
    (hp : p t) : ∃ r : c.Read Token, c.takeIf? p = some r ∧ r.result = t ∧ r.next.ahead = ts := by
  obtain ⟨last, ahead⟩ := c
  subst hc
  exact ⟨_, by rw [Cursor.takeIf?_cons, if_pos hp], rfl, rfl⟩

theorem takeIf?_of_head {p : Token → Bool} (h : ∀ t ∈ c.ahead.head?, p t = false) :
    c.takeIf? p = none := by
  obtain ⟨last, _ | ⟨t, ts⟩⟩ := c
  · rfl
  · rw [Cursor.takeIf?_cons, h t (by simp)]
    rfl

theorem peek?_of_cons {t : Token} {ts : List Token} (hc : c.ahead = t :: ts) :
    c.peek? = some t := by
  rw [Cursor.peek?, hc, List.head?_cons]

theorem takeKind?_eq_some {k : Kind} {r : c.Read Token} (h : takeKind? k c = some r) :
    r.result.kind = k ∧ c.ahead = r.result :: r.next.ahead := by
  simpa using takeIf?_eq_some h

theorem takeKind?_eq_none {k : Kind} (h : takeKind? k c = none) : NotNext (· = k) c.ahead := by
  intro t ht
  simpa using takeIf?_eq_none h t ht

theorem takeKind?_of_cons {k : Kind} {t : Token} {ts : List Token} (hc : c.ahead = t :: ts)
    (hk : t.kind = k) :
    ∃ r : c.Read Token, takeKind? k c = some r ∧ r.result = t ∧ r.next.ahead = ts :=
  takeIf?_of_cons hc (by simpa using hk)

theorem takeKind?_of_notNext {k : Kind} (h : NotNext (· = k) c.ahead) : takeKind? k c = none := by
  apply takeIf?_of_head
  intro t ht
  simpa using h t ht

theorem operand?_sound {r : c.Read Operand} (h : operand? c = some r) :
    FullValue c.ahead r.result r.next.ahead := by
  unfold operand? at h
  obtain ⟨v, hv, he⟩ := Option.map_eq_some_iff.mp h
  obtain ⟨hk, hc⟩ := takeIf?_eq_some hv
  rw [hc]
  split at he
  · rename_i e hm
    obtain ⟨hek, hec⟩ := takeKind?_eq_some hm
    cases he
    rw [hec]
    exact .marked hk hek
  · rename_i hm
    cases he
    exact .unmarked hk (takeKind?_eq_none hm)

theorem operand?_eq_none (h : operand? c = none) : NotNext (fun k => k.isValue) c.ahead := by
  intro t ht
  simpa using takeIf?_eq_none (Option.map_eq_none_iff.mp h) t ht

theorem operand?_of_notNext (h : NotNext (fun k => k.isValue) c.ahead) : operand? c = none := by
  rw [operand?, takeIf?_of_head fun t ht => by simpa using h t ht]
  rfl

theorem operand?_complete {o : Operand} {rest : List Token} (h : FullValue c.ahead o rest) :
    ∃ r : c.Read Operand, operand? c = some r ∧ r.result = o ∧ r.next.ahead = rest := by
  generalize hc : c.ahead = ts at h
  cases h with
  | marked hv he =>
    obtain ⟨r, hr, rfl, hn⟩ := takeIf?_of_cons (p := fun t => t.kind.isValue) hc hv
    obtain ⟨e, hm, rfl, hl⟩ := takeKind?_of_cons hn he
    exact ⟨_, by rw [operand?, hr, Option.map_some, hm], rfl, hl⟩
  | unmarked hv hn =>
    obtain ⟨r, hr, rfl, rfl⟩ := takeIf?_of_cons (p := fun t => t.kind.isValue) hc hv
    exact ⟨_, by rw [operand?, hr, Option.map_some, takeKind?_of_notNext hn], rfl, rfl⟩

theorem operand_sound {expected : Expectation} {r : c.Read Operand}
    (h : operand expected c = .ok r) : FullValue c.ahead r.result r.next.ahead := by
  unfold operand at h
  split at h
  · rename_i o ho
    cases h
    exact operand?_sound ho
  · cases h

theorem operand_complete (expected : Expectation) {o : Operand} {rest : List Token}
    (h : FullValue c.ahead o rest) :
    ∃ r : c.Read Operand, operand expected c = .ok r ∧ r.result = o ∧ r.next.ahead = rest := by
  obtain ⟨r, hr, ho, hn⟩ := operand?_complete h
  exact ⟨r, by rw [operand, hr], ho, hn⟩

theorem requireKind_sound {k : Kind} {expected : Expectation} {r : c.Read Token}
    (h : requireKind k expected c = .ok r) :
    r.result.kind = k ∧ c.ahead = r.result :: r.next.ahead := by
  unfold requireKind at h
  split at h
  · rename_i t ht
    cases h
    exact takeKind?_eq_some ht
  · cases h

theorem requireKind_complete {k : Kind} (expected : Expectation) {t : Token} {ts : List Token}
    (hc : c.ahead = t :: ts) (hk : t.kind = k) :
    ∃ r : c.Read Token, requireKind k expected c = .ok r ∧ r.result = t ∧ r.next.ahead = ts := by
  obtain ⟨r, hr, ht, hn⟩ := takeKind?_of_cons hc hk
  exact ⟨r, by rw [requireKind, hr], ht, hn⟩

theorem joined_sound (c : Cursor Token) {r : Joined c} (h : joined c = .ok r) :
    Enumeration c.ahead r.values r.next.ahead := by
  fun_induction joined c with
  | case1 c hs =>
    cases h
    exact .done (takeKind?_eq_none hs)
  | case2 c s hs ih =>
    obtain ⟨v, hv, h⟩ := bind_eq_ok h
    obtain ⟨more, hm, h⟩ := bind_eq_ok h
    cases h
    obtain ⟨hk, hc⟩ := takeKind?_eq_some hs
    rw [hc]
    exact .more hk (operand_sound hv) (ih v hm)

theorem joined_complete {ts vs rest : List Token} (h : Enumeration ts vs rest) (c : Cursor Token)
    (hc : c.ahead = ts) :
    ∃ r : Joined c, joined c = .ok r ∧ r.values = vs ∧ r.next.ahead = rest := by
  induction h generalizing c with
  | done hn =>
    subst hc
    have h : joined c = .ok ⟨[], c, Nat.le_refl _⟩ := by rw [joined, takeKind?_of_notNext hn]
    exact ⟨_, h, rfl, rfl⟩
  | more hk ho hm ih =>
    obtain ⟨s, hs, rfl, rfl⟩ := takeKind?_of_cons hc hk
    obtain ⟨v, hv, rfl, rfl⟩ := operand_complete .valueAfterSeparator ho
    obtain ⟨more, hmore, rfl, rfl⟩ := ih v.next rfl
    have hl : more.next.ahead.length ≤ c.ahead.length := by
      have := s.shorter; have := v.shorter; have := more.notLonger; omega
    have h : joined c = .ok ⟨v.result.token :: more.values, more.next, hl⟩ := by
      rw [joined, hs]
      simp only [hv, hmore, ok_bind]
      rfl
    exact ⟨_, h, rfl, rfl⟩

theorem parameterName_eq_ok {t : Token} {name : String} (h : parameterName t = .ok name) :
    name = t.text ∧ t.kind = .identifier := by
  unfold parameterName at h
  split at h
  · cases h
    exact ⟨rfl, by assumption⟩
  · cases h

theorem parameters_sound {ts : List Token} {names : List String}
    (h : ts.mapM parameterName = .ok names) :
    names = ts.map Token.text ∧ ∀ t ∈ ts, t.kind = .identifier := by
  induction ts generalizing names with
  | nil =>
    cases h
    simp
  | cons t ts ih =>
    rw [List.mapM_cons] at h
    obtain ⟨name, ht, h⟩ := bind_eq_ok h
    obtain ⟨more, hm, h⟩ := bind_eq_ok h
    cases h
    obtain ⟨rfl, hk⟩ := parameterName_eq_ok ht
    obtain ⟨rfl, hi⟩ := ih hm
    exact ⟨rfl, by simpa using ⟨hk, hi⟩⟩

theorem parameters_complete {ts : List Token} (h : ∀ t ∈ ts, t.kind = .identifier) :
    ts.mapM parameterName = .ok (ts.map Token.text) := by
  induction ts with
  | nil => rfl
  | cons t ts ih =>
    have ht : parameterName t = .ok t.text := if_pos (h t (by simp))
    rw [List.mapM_cons, ht, ih (fun u hu => h u (by simp [hu]))]
    rfl

end Readers

def ReadsBodies {n : Nat} (body : BodyReader n) : Prop :=
  ∀ p d h b rest, (∃ r, body p d h = .ok r ∧ r.result = b ∧ r.next.ahead = rest) ↔
    ClosedBody d.ahead b rest

theorem expression_sound {c : Cursor Token} {body : BodyReader c.ahead.length}
    (hbody : ReadsBodies body) {r : c.Read Expr} (h : expression c body = .ok r) :
    Expression c.ahead r.result r.next.ahead := by
  unfold expression at h
  obtain ⟨first, hf, h⟩ := bind_eq_ok h
  obtain ⟨rest, hj, h⟩ := bind_eq_ok h
  have hf := operand_sound hf
  have hj := joined_sound _ hj
  -- The branches are the rules of the grammar, in the order in which they are tried.
  split at h
  · rename_i hm
    split at h
    · rename_i callee hc
      cases h
      obtain ⟨hk, hc⟩ := takeKind?_eq_some hc
      exact .markedCall hf hm (hc ▸ hj) hk
    · rename_i hn
      cases h
      exact .markedValue hf hm hj (takeKind?_eq_none hn)
  · rename_i hm
    have hm : first.result.marked = false := by simpa using hm
    split at h
    · rename_i p hp
      obtain ⟨word, hw, h⟩ := bind_eq_ok h
      obtain ⟨params, hps, h⟩ := bind_eq_ok h
      obtain ⟨block, hb, h⟩ := bind_eq_ok h
      cases h
      obtain ⟨hp, hcp⟩ := takeKind?_eq_some hp
      obtain ⟨hw, hcw⟩ := requireKind_sound hw
      obtain ⟨rfl, hi⟩ := parameters_sound hps
      obtain ⟨close, hc, hb⟩ := (hbody _ _ _ _ _).mp ⟨block, hb, rfl, rfl⟩
      exact .function hf hm (hcw ▸ hcp ▸ hj) hp hw hi hb hc
    · rename_i hp
      split at h
      · rename_i arg ha
        obtain ⟨more, hr, h⟩ := bind_eq_ok h
        cases h
        exact .call hf hm hj (operand?_sound ha) (joined_sound _ hr)
      · rename_i ha
        cases h
        refine .value hf hm hj fun t ht hk => ?_
        cases hk with
        | inl hk => exact takeKind?_eq_none hp t ht hk
        | inr hk => exact operand?_eq_none ha t ht hk

theorem expression_complete {c : Cursor Token} {body : BodyReader c.ahead.length}
    (hbody : ReadsBodies body) {e : Expr} {rest : List Token} (h : Expression c.ahead e rest) :
    ∃ r, expression c body = .ok r ∧ r.result = e ∧ r.next.ahead = rest := by
  -- Each reader succeeds on its part of the derivation, so the branch taken is the derived one.
  cases h with
  | markedCall df hm dj dc =>
    obtain ⟨first, hf, rfl, rfl⟩ := operand_complete .value df
    obtain ⟨joined, hj, rfl, hn⟩ := joined_complete dj first.next rfl
    obtain ⟨callee, hc, rfl, rfl⟩ := takeKind?_of_cons hn dc
    refine ⟨.ofLater ⟨_, callee.next, callee.shorter⟩ (Nat.lt_of_le_of_lt joined.notLonger
      first.shorter), ?_, rfl, rfl⟩
    simp only [expression, hf, hj, hm, hc, ok_bind, if_true]
    rfl
  | markedValue df hm dj hn =>
    obtain ⟨first, hf, rfl, rfl⟩ := operand_complete .value df
    obtain ⟨joined, hj, rfl, rfl⟩ := joined_complete dj first.next rfl
    refine ⟨⟨_, joined.next, Nat.lt_of_le_of_lt joined.notLonger first.shorter⟩, ?_, rfl, rfl⟩
    simp only [expression, hf, hj, hm, takeKind?_of_notNext hn, ok_bind, if_true]
    rfl
  | function df hm dj dp dw hi db dc =>
    obtain ⟨first, hf, rfl, rfl⟩ := operand_complete .value df
    obtain ⟨joined, hj, rfl, hn⟩ := joined_complete dj first.next rfl
    obtain ⟨p, hp, rfl, hpn⟩ := takeKind?_of_cons hn dp
    obtain ⟨word, hw, rfl, rfl⟩ := requireKind_complete .functionAfterParameter hpn dw
    have short : word.next.ahead.length < c.ahead.length := by
      have := word.shorter; have := p.shorter; have := joined.notLonger; have := first.shorter
      omega
    obtain ⟨block, hb, rfl, rfl⟩ := (hbody word.result.position word.next short _ _).mpr ⟨_, dc, db⟩
    refine ⟨.ofLater ⟨_, block.next, block.shorter⟩ short, ?_, rfl, rfl⟩
    simp only [expression, hf, hj, hm, hp, hw, parameters_complete hi, hb, ok_bind,
      Bool.false_eq_true, if_false]
    rfl
  | call df hm dj da dr =>
    obtain ⟨first, hf, rfl, rfl⟩ := operand_complete .value df
    obtain ⟨joined, hj, rfl, rfl⟩ := joined_complete dj first.next rfl
    obtain ⟨arg, ha, rfl, rfl⟩ := operand?_complete da
    obtain ⟨more, hr, rfl, rfl⟩ := joined_complete dr arg.next rfl
    obtain ⟨t, us, ht, hv⟩ := da.isValue_head
    have hp : takeKind? .parameter joined.next = none :=
      takeKind?_of_notNext (ht ▸ notNext_of_isValue us hv rfl)
    have short : more.next.ahead.length < c.ahead.length := by
      have := more.notLonger; have := arg.shorter; have := joined.notLonger
      have := first.shorter
      omega
    refine ⟨⟨_, more.next, short⟩, ?_, rfl, rfl⟩
    simp only [expression, hf, hj, hm, hp, ha, hr, ok_bind, Bool.false_eq_true, if_false]
    rfl
  | value df hm dj hn =>
    obtain ⟨first, hf, rfl, rfl⟩ := operand_complete .value df
    obtain ⟨joined, hj, rfl, rfl⟩ := joined_complete dj first.next rfl
    have hp : takeKind? .parameter joined.next = none :=
      takeKind?_of_notNext fun t ht hk => hn t ht (.inl hk)
    have ha : operand? joined.next = none := operand?_of_notNext fun t ht hk => hn t ht (.inr hk)
    refine ⟨⟨_, joined.next, Nat.lt_of_le_of_lt joined.notLonger first.shorter⟩, ?_, rfl, rfl⟩
    simp only [expression, hf, hj, hm, hp, ha, ok_bind, Bool.false_eq_true, if_false]
    rfl

theorem statement_sound {c : Cursor Token} {body : BodyReader c.ahead.length}
    (hbody : ReadsBodies body) {r : c.Read Statement} (h : statement c body = .ok r) :
    Sentence c.ahead r.result r.next.ahead := by
  unfold statement at h
  obtain ⟨e, he, h⟩ := bind_eq_ok h
  have he := expression_sound hbody he
  split at h
  · rename_i hn
    cases h
    exact .expression he (takeKind?_eq_none hn)
  · rename_i as ha
    obtain ⟨name, hi, h⟩ := bind_eq_ok h
    cases h
    obtain ⟨ha, hca⟩ := takeKind?_eq_some ha
    obtain ⟨hi, hci⟩ := requireKind_sound hi
    exact .definition (hci ▸ hca ▸ he) ha hi

theorem statement_complete {c : Cursor Token} {body : BodyReader c.ahead.length}
    (hbody : ReadsBodies body) {s : Statement} {rest : List Token} (h : Sentence c.ahead s rest) :
    ∃ r, statement c body = .ok r ∧ r.result = s ∧ r.next.ahead = rest := by
  cases h with
  | definition de da di =>
    obtain ⟨e, he, rfl, hn⟩ := expression_complete hbody de
    obtain ⟨as, ha, rfl, hna⟩ := takeKind?_of_cons hn da
    obtain ⟨name, hi, rfl, rfl⟩ := requireKind_complete .nameAfterNaming hna di
    refine ⟨⟨_, name.next, Nat.lt_trans name.shorter (Nat.lt_trans as.shorter e.shorter)⟩, ?_, rfl,
      rfl⟩
    simp only [statement, he, ha, hi, ok_bind]
    rfl
  | expression de dn =>
    obtain ⟨e, he, rfl, rfl⟩ := expression_complete hbody de
    refine ⟨⟨_, e.next, e.shorter⟩, ?_, rfl, rfl⟩
    simp only [statement, he, takeKind?_of_notNext dn, ok_bind]
    rfl

theorem Expression.isValue_head {ts rest : List Token} {e : Expr} (h : Expression ts e rest) :
    ∃ t us, ts = t :: us ∧ t.kind.isValue := by
  cases h <;> exact FullValue.isValue_head ‹_›

/-- A statement opens with a value. -/
theorem Sentence.isValue_head {ts rest : List Token} {s : Statement} (h : Sentence ts s rest) :
    ∃ t us, ts = t :: us ∧ t.kind.isValue := by
  cases h <;> exact Expression.isValue_head ‹_›

section Bodies

variable {c : Cursor Token} (hs : ReadsBodies (n := c.ahead.length) fun p d _ => body p d)
include hs

theorem body_sound {p : Position} {r : c.Read Block} (h : body p c = .ok r) :
    ClosedBody c.ahead r.result r.next.ahead := by
  rw [body] at h
  split at h
  · cases h
  · split at h
    · rename_i close hc
      cases h
      obtain ⟨hk, hc⟩ := takeKind?_eq_some hc
      exact ⟨close.result, hk, hc ▸ .nil⟩
    · obtain ⟨s, hr, h⟩ := bind_eq_ok h
      obtain ⟨more, hm, h⟩ := bind_eq_ok h
      cases h
      obtain ⟨close, hk, hb⟩ := (hs p s.next s.shorter _ _).mp ⟨more, hm, rfl, rfl⟩
      exact ⟨close, hk, .cons (statement_sound hs hr) hb⟩

theorem body_complete (p : Position) {b : Block} {rest : List Token}
    (h : ClosedBody c.ahead b rest) :
    ∃ r, body p c = .ok r ∧ r.result = b ∧ r.next.ahead = rest := by
  obtain ⟨close, hk, hb⟩ := h
  generalize hts : c.ahead = ts at hb
  cases hb with
  | nil =>
    obtain ⟨r, hr, rfl, rfl⟩ := takeKind?_of_cons hts hk
    refine ⟨⟨[], r.next, r.shorter⟩, ?_, rfl, rfl⟩
    rw [body, hr, peek?_of_cons hts]
  | cons ds db =>
    subst hts
    obtain ⟨t, us, ht, hv⟩ := ds.isValue_head
    have hc : takeKind? .endFunction c = none :=
      takeKind?_of_notNext (ht ▸ notNext_of_isValue us hv rfl)
    obtain ⟨s, hr, rfl, rfl⟩ := statement_complete hs ds
    obtain ⟨more, hm, rfl, rfl⟩ := (hs p s.next s.shorter _ _).mpr ⟨close, hk, db⟩
    refine ⟨.ofLater ⟨s.result :: more.result, more.next, more.shorter⟩ s.shorter, ?_, rfl, rfl⟩
    rw [body, hc, peek?_of_cons ht]
    simp only [hr, hm, ok_bind]
    rfl

end Bodies

/-- The reader of function bodies reads what the grammar derives. -/
theorem readsBodies (n : Nat) : ReadsBodies (n := n) fun p d _ => body p d := by
  induction n using Nat.strongRecOn with
  | ind n ih =>
    -- A body inside of another one has fewer tokens ahead, so its reader is known to be right.
    intro p d hd b rest
    have hs := ih d.ahead.length hd
    constructor
    · rintro ⟨r, hr, rfl, rfl⟩
      exact body_sound hs hr
    · exact body_complete hs p

theorem program_sound (c : Cursor Token) {b : Block} (h : program c = .ok b) :
    Program c.ahead b := by
  fun_induction program c generalizing b with
  | case1 c hp =>
    cases h
    rw [List.head?_eq_none_iff.mp hp]
    exact .nil
  | case2 c t hp hk => cases h
  | case3 c t hp hk ih =>
    obtain ⟨s, hs, h⟩ := bind_eq_ok h
    obtain ⟨more, hm, h⟩ := bind_eq_ok h
    cases h
    exact .cons (statement_sound (readsBodies _) hs) (ih s hm)

theorem program_complete {b : Block} {c : Cursor Token} (h : Program c.ahead b) :
    program c = .ok b := by
  induction b generalizing c with
  | nil =>
    generalize hc : c.ahead = ts at h
    cases h
    have hp : c.peek? = none := by rw [Cursor.peek?, hc, List.head?_nil]
    rw [program, hp]
  | cons s b ih =>
    cases h with
    | cons ds db =>
      obtain ⟨t, us, ht, hv⟩ := ds.isValue_head
      obtain ⟨s, hs, rfl, rfl⟩ := statement_complete (readsBodies _) ds
      have hk : t.kind ≠ .endFunction := kind_ne_of_isValue hv rfl
      rw [program, peek?_of_cons ht]
      simp only [hk, if_false, hs, ih db, ok_bind]
      rfl

theorem parse_eq_ok_iff {ts : List Token} {b : Block} : parse ts = .ok b ↔ Program ts b :=
  ⟨program_sound (.ofList ts), program_complete (c := .ofList ts)⟩

/-- Parsing succeeds on the token lists that the grammar derives a program from, and returns that
program, of which there is only one. -/
theorem parse_exact (ts : List Token) :
    (∀ b, parse ts = .ok b ↔ Program ts b) ∧
    (∀ b, parse ts = .ok b ↔ ∀ b', Program ts b' ↔ b' = b) ∧
    ((∃ e, parse ts = .error e) ↔ ¬ ∃ b, Program ts b) := by
  simp only [← parse_eq_ok_iff]
  cases parse ts with
  | error e => simp
  | ok p =>
    refine ⟨by simp, fun b => ?_, by simp⟩
    constructor
    · rintro h b'
      cases h
      simp [eq_comm]
    · intro h
      exact (h b).mpr rfl

end Holov.Grammar
