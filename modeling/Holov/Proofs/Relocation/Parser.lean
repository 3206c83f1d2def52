import Holov.Proofs.Relocation

namespace Holov.Parser

variable {f : Position → Position}

/-- Two parses that both succeed with results related by `R`, or fail with the same error up to
its position. -/
inductive Related (f : Position → Position) {α α' : Type} (R : α → α' → Prop) :
    Except ParseError α → Except ParseError α' → Prop
  | ok {a : α} {a' : α'} (h : R a a') : Related f R (.ok a) (.ok a')
  | error (e : ParseError) : Related f R (.error e) (.error (e.relocate f))

theorem Related.bind {α α' β β' : Type} {R : α → α' → Prop} {S : β → β' → Prop}
    {x : Except ParseError α} {y : Except ParseError α'} {g : α → Except ParseError β}
    {g' : α' → Except ParseError β'} (h : Related f R x y)
    (hg : ∀ a a', R a a' → Related f S (g a) (g' a')) : Related f S (x >>= g) (y >>= g') := by
  cases h with
  | ok h => exact hg _ _ h
  | error e => exact .error e

theorem Related.ok_or_error {α α' : Type} {R : α → α' → Prop} {x : Except ParseError α}
    {y : Except ParseError α'} (h : Related f R x y) :
    (∃ a a', x = .ok a ∧ y = .ok a' ∧ R a a') ∨ ∃ e, x = .error e ∧ y = .error (e.relocate f) := by
  cases h with
  | ok h => exact .inl ⟨_, _, rfl, rfl, h⟩
  | error e => exact .inr ⟨e, rfl, rfl⟩

theorem Related.exists_of_ok {α α' : Type} {R : α → α' → Prop} {a : α}
    {y : Except ParseError α'} (h : Related f R (.ok a) y) : ∃ a', y = .ok a' ∧ R a a' := by
  cases h with
  | ok h => exact ⟨_, rfl, h⟩

def endPosition (c : Cursor Token) : Position :=
  (c.last?.map Token.position).getD {}

/-- A cursor over moved tokens. The last token counts only where nothing is ahead. -/
structure Moved (f : Position → Position) (c d : Cursor Token) : Prop where
  ahead : d.ahead = c.ahead.map (Token.relocate f)
  last : c.ahead = [] → endPosition d = f (endPosition c)

def MovedRead (f : Position → Position) {β : Type} (g : β → β) {c d : Cursor Token}
    (r : c.Read β) (r' : d.Read β) : Prop :=
  r'.result = g r.result ∧ Moved f r.next r'.next

def Both {α α' : Type} (R : α → α' → Prop) (x : Option α) (y : Option α') : Prop :=
  (x = none ∧ y = none) ∨ ∃ a a', x = some a ∧ y = some a' ∧ R a a'

theorem Both.of_none {α α' : Type} {R : α → α' → Prop} {x : Option α} {y : Option α'}
    (h : Both R x y) (hx : x = none) : y = none := by
  obtain ⟨-, hy⟩ | ⟨a, a', ha, -⟩ := h
  · exact hy
  · rw [hx] at ha
    cases ha

theorem Both.of_some {α α' : Type} {R : α → α' → Prop} {x : Option α} {y : Option α'} {a : α}
    (h : Both R x y) (hx : x = some a) : ∃ a', y = some a' ∧ R a a' := by
  obtain ⟨ha, -⟩ | ⟨b, b', hb, hy, hr⟩ := h
  · rw [hx] at ha
    cases ha
  · rw [hx] at hb
    cases hb
    exact ⟨b', hy, hr⟩

variable {c d : Cursor Token}

theorem unmet_relocate (h : Moved f c d) (expected : Expectation) :
    unmet d expected = (unmet c expected).relocate f := by
  obtain ⟨last, _ | ⟨t, ts⟩⟩ := c
  · obtain ⟨last', ahead⟩ := d
    obtain rfl : ahead = [] := h.ahead
    change ParseError.endOfInput expected (endPosition _) = .endOfInput expected (f (endPosition _))
    rw [h.last rfl]
  · obtain ⟨last', ahead⟩ := d
    obtain rfl : ahead = t.relocate f :: ts.map (Token.relocate f) := h.ahead
    rfl

theorem takeIf?_moved (h : Moved f c d) {p : Token → Bool}
    (hp : ∀ t : Token, p (t.relocate f) = p t) :
    Both (MovedRead f (Token.relocate f)) (c.takeIf? p) (d.takeIf? p) := by
  obtain ⟨last, _ | ⟨t, ts⟩⟩ := c
  · obtain ⟨last', ahead⟩ := d
    obtain rfl : ahead = [] := h.ahead
    exact .inl ⟨rfl, rfl⟩
  · obtain ⟨last', ahead⟩ := d
    obtain rfl : ahead = t.relocate f :: ts.map (Token.relocate f) := h.ahead
    rw [Cursor.takeIf?_cons, Cursor.takeIf?_cons, hp]
    split
    · exact .inr ⟨_, _, rfl, rfl, rfl, rfl, fun _ => rfl⟩
    · exact .inl ⟨rfl, rfl⟩

theorem takeKind?_moved (h : Moved f c d) (kind : Kind) :
    Both (MovedRead f (Token.relocate f)) (takeKind? kind c) (takeKind? kind d) :=
  takeIf?_moved h fun _ => rfl

theorem requireKind_moved (h : Moved f c d) (kind : Kind) (expected : Expectation) :
    Related f (MovedRead f (Token.relocate f)) (requireKind kind expected c)
      (requireKind kind expected d) := by
  unfold requireKind
  obtain ⟨hx, hy⟩ | ⟨r, r', hx, hy, hr⟩ := takeKind?_moved h kind
  · rw [hx, hy, unmet_relocate h]
    exact .error _
  · rw [hx, hy]
    exact .ok hr

def Operand.relocate (f : Position → Position) (o : Operand) : Operand :=
  ⟨o.token.relocate f, o.marked⟩

theorem operand?_moved (h : Moved f c d) :
    Both (MovedRead f (Operand.relocate f)) (operand? c) (operand? d) := by
  unfold operand?
  obtain ⟨hx, hy⟩ | ⟨r, r', hx, hy, hr, hn⟩ :=
    takeIf?_moved h (p := fun t => t.kind.isValue) fun _ => rfl
  · rw [hx, hy]
    exact .inl ⟨rfl, rfl⟩
  · rw [hx, hy, Option.map_some, Option.map_some]
    obtain ⟨he, he'⟩ | ⟨e, e', he, he', -, hn⟩ := takeKind?_moved hn .caseEnding
    · rw [he, he']
      exact .inr ⟨_, _, rfl, rfl, by rw [hr]; rfl, hn⟩
    · rw [he, he']
      exact .inr ⟨_, _, rfl, rfl, by simp only [Cursor.Read.ofLater, hr]; rfl, hn⟩

theorem operand_moved (h : Moved f c d) (expected : Expectation) :
    Related f (MovedRead f (Operand.relocate f)) (operand expected c) (operand expected d) := by
  unfold operand
  obtain ⟨hx, hy⟩ | ⟨r, r', hx, hy, hr⟩ := operand?_moved h
  · rw [hx, hy, unmet_relocate h]
    exact .error _
  · rw [hx, hy]
    exact .ok hr

theorem joined_moved (h : Moved f c d) :
    Related f (fun r r' => r'.values = r.values.map (Token.relocate f) ∧ Moved f r.next r'.next)
      (joined c) (joined d) := by
  fun_induction joined c generalizing d with
  | case1 c hs =>
    rw [joined, (takeKind?_moved h .separator).of_none hs]
    exact .ok ⟨rfl, h⟩
  | case2 c s hs ih =>
    obtain ⟨s', hs', -, hn⟩ := (takeKind?_moved h .separator).of_some hs
    rw [joined, hs']
    refine (operand_moved hn .valueAfterSeparator).bind fun v v' hv => ?_
    refine (ih v hv.2).bind fun more more' hm => ?_
    exact .ok ⟨by simp [hv.1, hm.1, Operand.relocate], hm.2⟩

theorem parameterNames_moved (ts : List Token) :
    Related f Eq (ts.mapM parameterName) ((ts.map (Token.relocate f)).mapM parameterName) := by
  induction ts with
  | nil => exact .ok rfl
  | cons t ts ih =>
    rw [List.map_cons, List.mapM_cons, List.mapM_cons]
    have ht : Related f Eq (parameterName t) (parameterName (t.relocate f)) := by
      unfold parameterName
      rw [Token.relocate_kind]
      split
      · exact .ok rfl
      · exact .error _
    refine ht.bind fun name name' hn => ?_
    refine ih.bind fun more more' hm => ?_
    exact .ok (by rw [hn, hm])

def MovedBodies (f : Position → Position) {n n' : Nat} (body : BodyReader n)
    (body' : BodyReader n') : Prop :=
  ∀ p c d (hc : c.ahead.length < n) (hd : d.ahead.length < n'), Moved f c d →
    Related f (MovedRead f (relocateBlock f)) (body p c hc) (body' (f p) d hd)

section Bodies

variable {body : BodyReader c.ahead.length} {body' : BodyReader d.ahead.length}

theorem expression_moved (h : Moved f c d) (hb : MovedBodies f body body') :
    Related f (MovedRead f (Expr.relocate f)) (expression c body) (expression d body') := by
  unfold expression
  -- Every test that the reader makes is of kinds, so both runs take the same branch.
  refine (operand_moved h .value).bind fun first first' hf => ?_
  refine (joined_moved hf.2).bind fun rest rest' hr => ?_
  have hm : first'.result.marked = first.result.marked := by rw [hf.1]; rfl
  have ht : first'.result.token = first.result.token.relocate f := by rw [hf.1]; rfl
  have hv : rest'.values ++ [first'.result.token] =
      (rest.values ++ [first.result.token]).map (Token.relocate f) := by simp [hr.1, ht]
  simp only [hm, hv]
  split
  · obtain ⟨hx, hy⟩ | ⟨callee, callee', hx, hy, hc, hn⟩ := takeKind?_moved hr.2 .identifier
    · rw [hx, hy]
      exact .ok ⟨by simp [ht, Expr.relocate], hr.2⟩
    · rw [hx, hy]
      exact .ok ⟨by simp [Cursor.Read.ofLater, hc, Expr.relocate], hn⟩
  · obtain ⟨hx, hy⟩ | ⟨p, p', hx, hy, -, hp⟩ := takeKind?_moved hr.2 .parameter
    · rw [hx, hy]
      obtain ⟨hx, hy⟩ | ⟨arg, arg', hx, hy, ha, hn⟩ := operand?_moved hr.2
      · rw [hx, hy]
        exact .ok ⟨by simp [ht, Expr.relocate], hr.2⟩
      · rw [hx, hy]
        refine (joined_moved hn).bind fun more more' hmore => ?_
        exact .ok ⟨by simp [ht, hr.1, ha, hmore.1, Operand.relocate, Expr.relocate], hmore.2⟩
    · rw [hx, hy]
      refine (requireKind_moved hp .function .functionAfterParameter).bind fun word word' hw => ?_
      refine (parameterNames_moved _).bind fun params params' hps => ?_
      have hpos : word'.result.position = f word.result.position := by rw [hw.1]; rfl
      rw [hpos]
      refine (hb _ _ _ _ _ hw.2).bind fun block block' hblock => ?_
      exact .ok ⟨by simp [Cursor.Read.ofLater, hblock.1, hps, Expr.relocate], hblock.2⟩

theorem statement_moved (h : Moved f c d) (hb : MovedBodies f body body') :
    Related f (MovedRead f (Statement.relocate f)) (statement c body) (statement d body') := by
  unfold statement
  refine (expression_moved h hb).bind fun e e' he => ?_
  obtain ⟨hx, hy⟩ | ⟨as, as', hx, hy, -, ha⟩ := takeKind?_moved he.2 .naming
  · rw [hx, hy]
    exact .ok ⟨by simp [he.1, Statement.relocate], he.2⟩
  · rw [hx, hy]
    refine (requireKind_moved ha .identifier .nameAfterNaming).bind fun name name' hn => ?_
    exact .ok ⟨by simp [he.1, hn.1, Statement.relocate], hn.2⟩

end Bodies

theorem peek?_moved (h : Moved f c d) : d.peek? = c.peek?.map (Token.relocate f) := by
  rw [Cursor.peek?, h.ahead, List.head?_map, Cursor.peek?]

theorem body_moved (p : Position) (h : Moved f c d) :
    Related f (MovedRead f (relocateBlock f)) (body p c) (body (f p) d) := by
  fun_induction body p c generalizing d with
  | case1 p c hp =>
    rw [body, peek?_moved h, hp]
    exact .error (.unclosedBody p)
  | case2 p c t hp close hc =>
    obtain ⟨close', hc', -, hn⟩ := (takeKind?_moved h .endFunction).of_some hc
    rw [body, peek?_moved h, hp]
    simp only [Option.map_some, hc']
    exact .ok ⟨rfl, hn⟩
  | case3 p c t hp hc ihs ih =>
    rw [body, peek?_moved h, hp]
    simp only [Option.map_some, (takeKind?_moved h .endFunction).of_none hc]
    refine (statement_moved h fun q e e' he _ hm => ihs q e he hm).bind fun s s' hs => ?_
    refine (ih s hs.2).bind fun more more' hmore => ?_
    exact .ok ⟨by simp [Cursor.Read.ofLater, hs.1, hmore.1, relocateBlock], hmore.2⟩

theorem program_moved (h : Moved f c d) :
    Related f (fun b b' => b' = relocateBlock f b) (program c) (program d) := by
  fun_induction program c generalizing d with
  | case1 c hp =>
    rw [program, peek?_moved h, hp]
    exact .ok rfl
  | case2 c t hp hk =>
    rw [program, peek?_moved h, hp]
    have hk' : (t.relocate f).kind = .endFunction := hk
    simp only [Option.map_some, if_pos hk']
    exact .error (.unexpected t .statement)
  | case3 c t hp hk ih =>
    rw [program, peek?_moved h, hp]
    have hk' : (t.relocate f).kind ≠ .endFunction := hk
    simp only [Option.map_some, if_neg hk']
    have hb : MovedBodies f (fun p e _ => body p e : BodyReader c.ahead.length)
        (fun p e _ => body p e : BodyReader d.ahead.length) := fun p e e' _ _ hm => body_moved p hm
    refine (statement_moved h hb).bind fun s s' hs => ?_
    refine (ih s hs.2).bind fun more more' hmore => ?_
    exact .ok (by simp [hs.1, hmore, relocateBlock])

end Holov.Parser

namespace Holov

/-- Parsing commutes with every map of positions. -/
theorem parse_relocate (f : Position → Position) (ts : List Token) :
    Parser.Related f (fun b b' => b' = relocateBlock f b) (parse ts)
      (parse (ts.map (Token.relocate f))) := by
  cases ts with
  | nil =>
    -- Where there is no token the default position would be moved, but no error is raised.
    rw [List.map_nil, parse, Parser.program]
    exact .ok rfl
  | cons t ts =>
    apply Parser.program_moved
    exact ⟨rfl, fun h => by cases h⟩

theorem parse_relocate_of_ok (f : Position → Position) {ts : List Token} {p : Block}
    (h : parse ts = .ok p) : parse (ts.map (Token.relocate f)) = .ok (relocateBlock f p) := by
  have hr := parse_relocate f ts
  rw [h] at hr
  obtain ⟨q, hq, rfl⟩ := hr.exists_of_ok
  exact hq

end Holov
