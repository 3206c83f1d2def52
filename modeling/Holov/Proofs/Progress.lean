import Holov.Proofs.Grammar.Following
import Holov.Proofs.Progress.Walk

namespace Holov

variable {α β : Type}

namespace Cursor

variable {items : List α} {c : Cursor α} {i j : Nat}

theorem peek?_ofIndex (items : List α) (i : Nat) : (ofIndex items i).peek? = items[i]? :=
  List.head?_drop

/-- Behind the next item stands the cursor that has taken one more. -/
theorem ofIndex_succ {last : Option α} {a : α} {rest : List α}
    (h : ⟨last, a :: rest⟩ = ofIndex items i) : ⟨some a, rest⟩ = ofIndex items (i + 1) := by
  have ha : items[i]? = some a := by rw [← peek?_ofIndex, ← h]; rfl
  have hrest : rest = items.drop (i + 1) := by
    rw [← List.tail_drop]
    exact congrArg (fun c : Cursor α => c.ahead.tail) h
  rw [hrest, ← ha]
  rfl

theorem length_ahead (hc : c = ofIndex items i) : c.ahead.length = items.length - i := by
  rw [hc]
  exact List.length_drop

/-- A reading goes forward, from inside of the items. -/
theorem Read.index_lt (r : c.Read β) (hc : c = ofIndex items i) (hn : r.next = ofIndex items j) :
    i < j ∧ i < items.length := by
  have h := r.shorter
  rw [length_ahead hc, length_ahead hn] at h
  omega

end Cursor

/-- A reading and a walk that end alike: with one error, or with answers that `R` relates where the
walk stops. -/
def Mirrors (R : α → β → Nat → Prop) (x : Except ParseError α) (r : Walked β) : Prop :=
  match x, r.ending with
  | .ok a, .done b => R a b r.stop
  | .error e, .failed e' => e' = e
  | _, _ => False

/-- The reading has the same result, and leaves the cursor at the index. -/
def LeavesAt (ts : List Token) {c : Cursor Token} (r : c.Read β) (b : β) (j : Nat) : Prop :=
  r.result = b ∧ r.next = .ofIndex ts j

namespace Mirrors

variable {γ δ : Type} {R : α → β → Nat → Prop} {S : γ → δ → Nat → Prop} {r : Walked β}
  {g : β → Nat → Walked δ}

theorem bind_of_ok {x : Except ParseError α} {f : α → Except ParseError γ} (h : Mirrors R x r)
    (hf : ∀ a b j, x = .ok a → R a b j → Mirrors S (f a) (g b j)) :
    Mirrors S (x >>= f) (r.andThen g) := by
  obtain ⟨looks, j, ending⟩ := r
  match x, ending, h with
  | .ok a, .done b, h => exact hf a b j rfl h
  | .error e, .failed _, h => exact h

theorem bind {x : Except ParseError α} {f : α → Except ParseError γ} (h : Mirrors R x r)
    (hf : ∀ a b j, R a b j → Mirrors S (f a) (g b j)) : Mirrors S (x >>= f) (r.andThen g) :=
  h.bind_of_ok fun a b j _ => hf a b j

/-- What the walk has done before does not matter. -/
theorem behind {x : Except ParseError γ} {b : β} {j : Nat} (hb : r.ending = .done b)
    (hj : r.stop = j) (h : Mirrors S x (g b j)) : Mirrors S x (r.andThen g) := by
  obtain ⟨looks, _, _⟩ := r
  subst hb hj
  exact h

end Mirrors

def MirrorsOption (ts : List Token) (i : Nat) {c : Cursor Token} (x : Option (c.Read β))
    (r : Walked (Option β)) : Prop :=
  (x = none ∧ r.ending = .done none ∧ r.stop = i) ∨
    ∃ a, x = some a ∧ r.ending = .done (some a.result) ∧ a.next = .ofIndex ts r.stop

namespace Parser

variable {ts : List Token} {c : Cursor Token} {i : Nat}

theorem takeIf?_mirrors (hc : c = .ofIndex ts i) (p : Token → Bool) :
    MirrorsOption ts i (c.takeIf? p) (Walk.takeIf? p ts i) := by
  have hpeek : ts[i]? = c.peek? := by rw [hc, Cursor.peek?_ofIndex]
  obtain ⟨last, _ | ⟨t, rest⟩⟩ := c
  · have hi : ts[i]? = none := hpeek
    rw [Walk.takeIf?_of_fails (by simp [hi])]
    exact .inl ⟨rfl, rfl, rfl⟩
  · have hi : ts[i]? = some t := hpeek
    rw [Cursor.takeIf?_cons]
    by_cases hp : p t
    · rw [if_pos hp, Walk.takeIf?_of_holds hi hp]
      exact .inr ⟨_, rfl, rfl, Cursor.ofIndex_succ hc⟩
    · rw [if_neg hp, Walk.takeIf?_of_fails (by simpa [hi] using hp)]
      exact .inl ⟨rfl, rfl, rfl⟩

theorem takeKind?_mirrors (hc : c = .ofIndex ts i) (kind : Kind) :
    MirrorsOption ts i (takeKind? kind c) (Walk.takeKind? kind ts i) :=
  takeIf?_mirrors hc _

theorem unmet_mirrors {R : α → β → Nat → Prop} (hc : c = .ofIndex ts i) (expected : Expectation) :
    Mirrors R (.error (unmet c expected)) (Walk.unmet expected ts i) := by
  subst hc
  rfl

theorem ofExcept_mirrors (x : Except ParseError α) :
    Mirrors (fun a b j => a = b ∧ j = i) x (Walk.ofExcept x ts i) := by
  cases x with
  | ok a => exact ⟨rfl, rfl⟩
  | error e => rfl

theorem requireKind_mirrors (hc : c = .ofIndex ts i) (kind : Kind) (expected : Expectation) :
    Mirrors (LeavesAt ts) (requireKind kind expected c) (Walk.requireKind kind expected ts i) := by
  unfold requireKind
  obtain ⟨hx, he, hs⟩ | ⟨t, hx, he, hn⟩ := takeKind?_mirrors hc kind
  · rw [hx]
    exact .behind he hs (unmet_mirrors hc expected)
  · rw [hx]
    exact .behind he rfl ⟨rfl, hn⟩

theorem operand?_mirrors (hc : c = .ofIndex ts i) :
    MirrorsOption ts i (operand? c) (Walk.operand? ts i) := by
  unfold operand? Walk.operand?
  obtain ⟨hx, he, hs⟩ | ⟨t, hx, he, hn⟩ := takeIf?_mirrors hc fun t => t.kind.isValue
  · rw [hx]
    refine .inl ⟨rfl, ?_⟩
    simp [bind, Walked.andThen, he, hs, pure]
  · rw [hx, Option.map_some]
    obtain ⟨hx', he', hs'⟩ | ⟨e, hx', he', hn'⟩ := takeKind?_mirrors hn .caseEnding
    · rw [hx']
      refine .inr ⟨_, rfl, ?_⟩
      simp [bind, Walked.andThen, he, he', hs', pure, hn]
    · rw [hx']
      refine .inr ⟨_, rfl, ?_⟩
      simp [bind, Walked.andThen, he, he', pure, hn', Cursor.Read.ofLater]

theorem operand_mirrors (hc : c = .ofIndex ts i) (expected : Expectation) :
    Mirrors (LeavesAt ts) (operand expected c) (Walk.operand expected ts i) := by
  unfold operand
  obtain ⟨hx, he, hs⟩ | ⟨o, hx, he, hn⟩ := operand?_mirrors hc
  · rw [hx]
    exact .behind he hs (unmet_mirrors hc expected)
  · rw [hx]
    exact .behind he rfl ⟨rfl, hn⟩

theorem joined_mirrors (n : Nat) {c : Cursor Token} {i : Nat} (hc : c = .ofIndex ts i)
    (hn : ts.length ≤ i + n) :
    Mirrors (fun r values j => r.values = values ∧ r.next = .ofIndex ts j) (joined c)
      (Walk.joined n ts i) := by
  rw [joined]
  unfold Walk.joined
  obtain ⟨hx, he, hs⟩ | ⟨s, hx, he, hs⟩ := takeKind?_mirrors hc .separator
  · rw [hx]
    exact .behind he hs ⟨rfl, hc⟩
  · rw [hx]
    refine .behind he rfl ?_
    obtain ⟨hij, hi⟩ := s.index_lt hc hs
    cases n with
    | zero => omega
    | succ n =>
      refine (operand_mirrors hs .valueAfterSeparator).bind fun v o j hv => ?_
      have hj := (v.index_lt hs hv.2).1
      refine (joined_mirrors n hv.2 (by omega)).bind fun more values k hm => ?_
      exact ⟨by simp [hv.1, hm.1], hm.2⟩

/-- The reader of function bodies and the walk through them end alike, where the body comes behind
the three tokens or more that a literal from `i` begins with. -/
def MirrorsBodies (ts : List Token) (i : Nat) {m : Nat} (body : BodyReader m)
    (inner : Position → Walk Block) : Prop :=
  ∀ p d k h, d = .ofIndex ts k → i + 2 < min k ts.length →
    Mirrors (LeavesAt ts) (body p d h) (inner p ts k)

section Bodies

variable {n : Nat} {body : BodyReader c.ahead.length} {inner : Position → Walk Block}
  (hc : c = .ofIndex ts i) (hn : ts.length ≤ i + n + 1) (hb : MirrorsBodies ts i body inner)
include hc hn hb

theorem expression_mirrors :
    Mirrors (LeavesAt ts) (expression c body) (Walk.expression n inner ts i) := by
  unfold expression
  refine (operand_mirrors hc .value).bind fun first o j hf => ?_
  have hij := (first.index_lt hc hf.2).1
  refine (joined_mirrors n hf.2 (by omega)).bind fun rest values k hr => ?_
  obtain ⟨rfl, hf⟩ := hf
  obtain ⟨rfl, hr⟩ := hr
  have hjk := rest.notLonger
  rw [Cursor.length_ahead hr, Cursor.length_ahead hf] at hjk
  -- The reader and the walk look at the same tokens, so they take the same branch.
  split
  · obtain ⟨hx, he, hs⟩ | ⟨callee, hx, he, hs⟩ := takeKind?_mirrors hr .identifier
    · rw [hx]
      exact .behind he hs ⟨rfl, hr⟩
    · rw [hx]
      exact .behind he rfl ⟨rfl, hs⟩
  · obtain ⟨hx, he, hs⟩ | ⟨p, hx, he, hs⟩ := takeKind?_mirrors hr .parameter
    · rw [hx]
      refine .behind he hs ?_
      obtain ⟨hx, he, hs⟩ | ⟨arg, hx, he, hs⟩ := operand?_mirrors hr
      · rw [hx]
        exact .behind he hs ⟨rfl, hr⟩
      · rw [hx]
        refine .behind he rfl ?_
        have hkl := arg.index_lt hr hs
        refine (joined_mirrors n hs (by omega)).bind fun more values l hm => ?_
        exact ⟨by simp [hm.1], hm.2⟩
    · rw [hx]
      refine .behind he rfl ?_
      refine (requireKind_mirrors hs .function .functionAfterParameter).bind fun word t l hw => ?_
      refine (ofExcept_mirrors _).bind fun params params' m hm => ?_
      obtain ⟨rfl, rfl⟩ := hm
      obtain ⟨rfl, hw⟩ := hw
      have hkl := p.index_lt hr hs
      have hlm := word.index_lt hs hw
      refine (hb _ _ _ _ hw (by omega)).bind fun block b m hm => ?_
      exact ⟨by simp [Cursor.Read.ofLater, hm.1], hm.2⟩

theorem statement_mirrors :
    Mirrors (LeavesAt ts) (statement c body) (Walk.statement n inner ts i) := by
  unfold statement
  refine (expression_mirrors hc hn hb).bind fun e expr j he => ?_
  obtain ⟨rfl, hj⟩ := he
  obtain ⟨hx, hd, hs⟩ | ⟨as, hx, hd, hs⟩ := takeKind?_mirrors hj .naming
  · rw [hx]
    exact .behind hd hs ⟨rfl, hj⟩
  · rw [hx]
    refine .behind hd rfl ?_
    refine (requireKind_mirrors hs .identifier .nameAfterNaming).bind fun name t k hn => ?_
    exact ⟨by rw [hn.1], hn.2⟩

end Bodies

/-- The tokens in front of an inner body leave more rounds for it than it has tokens ahead. -/
theorem mirrorsBodies_of_forall {n : Nat} (hn : ts.length ≤ i + n + 1)
    (h : ∀ p d k, d = .ofIndex ts k → ts.length - k < n →
      Mirrors (LeavesAt ts) (body p d) (Walk.body n p ts k)) :
    MirrorsBodies (m := c.ahead.length) ts i (fun p d _ => body p d) (Walk.body n) := by
  intro p d k _ hd hk
  exact h p d k hd (by omega)

/-- A round for each token ahead and one more are enough for a body. The one more is needed only
where the tokens run out. -/
theorem body_mirrors (n : Nat) (p : Position) {c : Cursor Token} {i : Nat}
    (hc : c = .ofIndex ts i) (hn : ts.length - i ≤ n)
    (hend : body p c = .error (.unclosedBody p) → ts.length - i < n) :
    Mirrors (LeavesAt ts) (body p c) (Walk.body n p ts i) := by
  have hpeek : c.peek? = ts[i]? := by rw [hc, Cursor.peek?_ofIndex]
  rw [body] at hend ⊢
  rw [hpeek] at hend ⊢
  cases ht : ts[i]? with
  | none =>
    rw [ht] at hend
    have hlast := hend rfl
    cases n with
    | zero => omega
    | succ n => exact .behind (congrArg _ ht) rfl rfl
  | some t =>
    have hi : i < ts.length := (List.getElem?_eq_some_iff.mp ht).1
    -- A token is ahead, so there is a round left for it.
    cases n with
    | zero => omega
    | succ n =>
      refine .behind (congrArg _ ht) rfl ?_
      obtain ⟨hx, he, hs⟩ | ⟨close, hx, he, hs⟩ := takeKind?_mirrors hc .endFunction
      · simp only [ht, hx] at hend ⊢
        refine .behind he hs ?_
        have hround : ts.length ≤ i + n + 1 := by omega
        have hb := mirrorsBodies_of_forall (c := c) hround fun q d k hd hk =>
          body_mirrors n q hd (Nat.le_of_lt hk) fun _ => hk
        refine (statement_mirrors hc hround hb).bind_of_ok fun s stmt j hok hj => ?_
        have hij := (s.index_lt hc hj.2).1
        have hend' : body p s.next = .error (.unclosedBody p) → ts.length - j < n := by
          intro hmore
          have hlast := hend (by rw [hok, Grammar.ok_bind, hmore]; rfl)
          omega
        refine (body_mirrors n p hj.2 (by omega) hend').bind fun more block k hm => ?_
        exact ⟨by simp [Cursor.Read.ofLater, hj.1, hm.1], hm.2⟩
      · simp only [hx]
        exact .behind he rfl ⟨rfl, hs⟩

-- All the rounds can be needed: one for each token here.
example : (Walk.body 1 {} [{ kind := .identifier }, { kind := .endFunction }] 0).ending =
    .overrun := by
  cbv

example : (Walk.body 2 {} [{ kind := .identifier }, { kind := .endFunction }] 0).ending =
    .done [.expression (.value { kind := .identifier })] := by
  cbv

theorem bodies_mirror {n : Nat} (hn : ts.length ≤ i + n + 1) :
    MirrorsBodies (m := c.ahead.length) ts i (fun p d _ => body p d) (Walk.body n) :=
  mirrorsBodies_of_forall hn fun p _ _ hd hk => body_mirrors n p hd (Nat.le_of_lt hk) fun _ => hk

theorem program_mirrors (n : Nat) {c : Cursor Token} {i : Nat} (hc : c = .ofIndex ts i)
    (hn : ts.length ≤ i + n) :
    Mirrors (fun b b' j => b = b' ∧ ts.length ≤ j) (program c) (Walk.program n ts i) := by
  have hpeek : c.peek? = ts[i]? := by rw [hc, Cursor.peek?_ofIndex]
  rw [program]
  unfold Walk.program
  cases ht : ts[i]? with
  | none =>
    rw [hpeek, ht]
    exact .behind (congrArg _ ht) rfl ⟨rfl, List.getElem?_eq_none_iff.mp ht⟩
  | some t =>
    have hi : i < ts.length := (List.getElem?_eq_some_iff.mp ht).1
    rw [hpeek, ht]
    refine .behind (congrArg _ ht) rfl ?_
    cases n with
    | zero => omega
    | succ n =>
      by_cases hk : t.kind = .endFunction
      · simp only [if_pos hk]
        have hunmet : ParseError.unexpected t .statement = unmet c .statement := by
          rw [unmet, hpeek, ht]
        rw [hunmet]
        exact unmet_mirrors hc .statement
      · simp only [if_neg hk]
        refine (statement_mirrors hc hn (bodies_mirror hn)).bind fun s stmt j hj => ?_
        have hij := (s.index_lt hc hj.2).1
        refine (program_mirrors n hj.2 (by omega)).bind fun more block k hm => ?_
        exact ⟨by rw [hj.1, hm.1], hm.2⟩

end Parser

namespace Grammar

/-- What is derived depends on the tokens that are read and on the one behind them. -/
def LooksOneAhead (D : List Token → β → List Token → Prop) : Prop :=
  ∀ ts b rest, D ts b rest → ∃ pre, ts = pre ++ rest ∧
    ∀ rest', rest'.head? = rest.head? → D (pre ++ rest') b rest'

theorem mayFollow_of_head? {w : Kind → Prop} {rest rest' : List Token}
    (h : rest'.head? = rest.head?) : MayFollow w rest rest' := by
  intro t ht _
  exact ⟨t, h ▸ ht, rfl⟩

theorem expression_looksOneAhead : LooksOneAhead Expression := by
  intro ts e rest h
  obtain ⟨pre, rfl, hreplace⟩ := h.replace
  exact ⟨pre, rfl, fun rest' hr => hreplace rest' (mayFollow_of_head? hr)⟩

theorem sentence_looksOneAhead : LooksOneAhead Sentence := by
  intro ts s rest h
  obtain ⟨pre, rfl, hreplace⟩ := h.replace
  exact ⟨pre, rfl, fun rest' hr => hreplace rest' (mayFollow_of_head? hr)⟩

theorem closedBody_looksOneAhead : LooksOneAhead ClosedBody := by
  rintro ts b rest ⟨close, hk, hb⟩
  obtain ⟨pre, rfl, hreplace⟩ := hb.replace
  refine ⟨pre ++ [close], by simp, fun rest' _ => ⟨close, hk, ?_⟩⟩
  rw [List.append_assoc]
  exact hreplace (close :: rest') fun s _ => .cons _ close _ _

section Readers

open Holov.Parser

theorem expression_reads (c : Cursor Token) (e : Expr) (rest : List Token) :
    (∃ r, expression c (fun p d _ => body p d) = .ok r ∧ r.result = e ∧ r.next.ahead = rest) ↔
      Expression c.ahead e rest := by
  constructor
  · rintro ⟨r, hr, rfl, rfl⟩
    exact expression_sound (readsBodies _) hr
  · exact expression_complete (readsBodies _)

theorem statement_reads (c : Cursor Token) (s : Statement) (rest : List Token) :
    (∃ r, statement c (fun p d _ => body p d) = .ok r ∧ r.result = s ∧ r.next.ahead = rest) ↔
      Sentence c.ahead s rest := by
  constructor
  · rintro ⟨r, hr, rfl, rfl⟩
    exact statement_sound (readsBodies _) hr
  · exact statement_complete (readsBodies _)

end Readers

end Grammar

/-- Lists that agree from one index to another have the same tokens between the two. -/
theorem drop_eq_append_of_agree {ts us pre : List Token} {i j : Nat} (hij : i ≤ j)
    (hj : j ≤ ts.length) (hpre : ts.drop i = pre ++ ts.drop j)
    (h : ∀ k, i ≤ k → k ≤ j → us[k]? = ts[k]?) : us.drop i = pre ++ us.drop j := by
  have hl : pre.length = j - i := by
    have hlength := congrArg List.length hpre
    simp only [List.length_drop, List.length_append] at hlength
    omega
  apply List.ext_getElem?
  intro k
  rw [List.getElem?_drop]
  by_cases hk : k < pre.length
  · rw [List.getElem?_append_left hk, h (i + k) (by omega) (by omega), ← List.getElem?_drop, hpre,
      List.getElem?_append_left hk]
  · rw [List.getElem?_append_right (by omega), List.getElem?_drop]
    congr 1
    omega

/-- From every index of every token list the reading stops, its cursor only having gone forward.
Where it succeeds it has gone forward, and what it has read depends on the tokens that it took and
on the one behind them. -/
structure Progresses (read : (c : Cursor Token) → Except ParseError (c.Read β))
    (walk : Nat → Walk β) : Prop where
  /-- With `n` tokens ahead the rounds of `walk n` are enough. -/
  stops (ts : List Token) (i : Nat) :
    Mirrors (LeavesAt ts) (read (.ofIndex ts i)) (walk (ts.length - i) ts i)
  frugal (ts : List Token) (i : Nat) : (walk (ts.length - i) ts i).Frugal ts i
  advances (ts : List Token) (i : Nat) (r : (Cursor.ofIndex ts i).Read β) :
    read (.ofIndex ts i) = .ok r →
      ∃ j, i < j ∧ j ≤ ts.length ∧ r.next = .ofIndex ts j ∧
        ∀ us : List Token, (∀ k, i ≤ k → k ≤ j → us[k]? = ts[k]?) →
          ∃ r', read (.ofIndex us i) = .ok r' ∧ r'.result = r.result ∧ r'.next = .ofIndex us j

theorem Mirrors.exists_index {ts : List Token} {i : Nat} {r : (Cursor.ofIndex ts i).Read β}
    {w : Walked β} (h : Mirrors (LeavesAt ts) (.ok r) w) (hf : w.Frugal ts i) :
    ∃ j, i < j ∧ j ≤ ts.length ∧ r.next = .ofIndex ts j := by
  obtain ⟨looks, j, ending⟩ := w
  match ending, h with
  | .done b, h =>
    obtain ⟨hij, hi⟩ := r.index_lt rfl h.2
    have hj : j ≤ max i ts.length := hf.inside
    exact ⟨j, hij, by omega, h.2⟩

/-- A reader that reads what a grammar derives, and walks along. -/
theorem progresses_of_derives {read : (c : Cursor Token) → Except ParseError (c.Read β)}
    {walk : Nat → Walk β} {D : List Token → β → List Token → Prop}
    (hread : ∀ c b rest,
      (∃ r, read c = .ok r ∧ r.result = b ∧ r.next.ahead = rest) ↔ D c.ahead b rest)
    (hD : Grammar.LooksOneAhead D)
    (hstops : ∀ ts i, Mirrors (LeavesAt ts) (read (.ofIndex ts i)) (walk (ts.length - i) ts i))
    (hfrugal : ∀ ts i, (walk (ts.length - i) ts i).Frugal ts i) : Progresses read walk := by
  have hindex : ∀ ts i r, read (.ofIndex ts i) = .ok r →
      ∃ j, i < j ∧ j ≤ ts.length ∧ r.next = .ofIndex ts j :=
    fun ts i r h => (h ▸ hstops ts i).exists_index (hfrugal ts i)
  refine ⟨hstops, hfrugal, fun ts i r h => ?_⟩
  obtain ⟨j, hij, hj, hnext⟩ := hindex ts i r h
  refine ⟨j, hij, hj, hnext, fun us hagree => ?_⟩
  have hd : D (ts.drop i) r.result (ts.drop j) := (hread _ _ _).mp ⟨r, h, rfl, by rw [hnext]; rfl⟩
  obtain ⟨pre, hpre, hreplace⟩ := hD _ _ _ hd
  have hhead : (us.drop j).head? = (ts.drop j).head? := by
    rw [List.head?_drop, List.head?_drop, hagree j (by omega) (Nat.le_refl j)]
  have hd' : D (us.drop i) r.result (us.drop j) := by
    rw [drop_eq_append_of_agree (by omega) hj hpre hagree]
    exact hreplace _ hhead
  obtain ⟨r', hr', hresult, hahead⟩ := (hread (.ofIndex us i) _ _).mpr hd'
  refine ⟨r', hr', hresult, ?_⟩
  -- Both indices are inside of the list, and what is ahead of them is as long.
  obtain ⟨j', hij', hj', hnext'⟩ := hindex us i r' hr'
  have hlast : j - 1 < us.length := by
    have hbound : j - 1 < ts.length := by omega
    have htaken : us[j - 1]? = some ts[j - 1] := by
      rw [hagree (j - 1) (by omega) (by omega), List.getElem?_eq_getElem hbound]
    exact (List.getElem?_eq_some_iff.mp htaken).1
  have hl := congrArg List.length hahead
  rw [Cursor.length_ahead hnext', List.length_drop] at hl
  obtain rfl : j' = j := by omega
  exact hnext'

namespace Parser

theorem statement_progresses :
    Progresses (fun c => statement c fun p d _ => body p d)
      (fun n => Walk.statement n (Walk.body n)) := by
  refine progresses_of_derives Grammar.statement_reads Grammar.sentence_looksOneAhead ?_ ?_
  · intro ts i
    exact statement_mirrors rfl (by omega) (bodies_mirror (by omega))
  · intro ts i
    exact (Walk.statement_affords (Walk.body_affords _) _ ts i).frugal (by simp) (by simp)

theorem expression_progresses :
    Progresses (fun c => expression c fun p d _ => body p d)
      (fun n => Walk.expression n (Walk.body n)) := by
  refine progresses_of_derives Grammar.expression_reads Grammar.expression_looksOneAhead ?_ ?_
  · intro ts i
    exact expression_mirrors rfl (by omega) (bodies_mirror (by omega))
  · intro ts i
    exact (Walk.expression_affords (Walk.body_affords _) _ ts i).frugal (by simp) (by simp)

theorem body_progresses (p : Position) : Progresses (body p) fun n => Walk.body (n + 1) p := by
  refine progresses_of_derives (fun c b rest => ?_) Grammar.closedBody_looksOneAhead ?_ ?_
  · exact Grammar.readsBodies _ p c (Nat.lt_succ_self _) b rest
  · intro ts i
    exact body_mirrors _ p rfl (by omega) fun _ => Nat.lt_succ_self _
  · intro ts i
    exact (Walk.body_affords _ p ts i).frugal (by simp) (by simp)

theorem unclosed_or_mirrors (p : Position) (ts : List Token) (i : Nat) :
    body p (.ofIndex ts i) = .error (.unclosedBody p) ∨
      Mirrors (LeavesAt ts) (body p (.ofIndex ts i)) (Walk.body (ts.length - i) p ts i) := by
  by_cases hclosed : body p (.ofIndex ts i) = .error (.unclosedBody p)
  · exact .inl hclosed
  · exact .inr (body_mirrors _ p rfl (Nat.le_refl _) fun h => absurd h hclosed)

end Parser

/-- From every index of every token list the readers of statements, expressions and bodies stop.
Their cursor only goes forward and stays inside of the list. A success goes forward, and is the same
in every list that has the same tokens there and the same next token. The loops over joined values
and over a program take no more rounds than there are tokens ahead. The loop over a body may take
one more, in which it finds that the tokens have run out. -/
theorem readers_progress :
    Progresses (fun c => Parser.statement c fun p d _ => Parser.body p d)
      (fun n => Walk.statement n (Walk.body n)) ∧
    Progresses (fun c => Parser.expression c fun p d _ => Parser.body p d)
      (fun n => Walk.expression n (Walk.body n)) ∧
    (∀ p, Progresses (Parser.body p) fun n => Walk.body (n + 1) p) ∧
    (∀ p ts i,
      Parser.body p (.ofIndex ts i) = .error (.unclosedBody p) ∨
        Mirrors (LeavesAt ts) (Parser.body p (.ofIndex ts i)) (Walk.body (ts.length - i) p ts i)) ∧
    (∀ ts i,
      Mirrors (fun r values j => r.values = values ∧ r.next = .ofIndex ts j)
        (Parser.joined (.ofIndex ts i)) (Walk.joined (ts.length - i) ts i) ∧
      (Walk.joined (ts.length - i) ts i).Frugal ts i) ∧
    ∀ ts i,
      Mirrors (fun b b' j => b = b' ∧ ts.length ≤ j)
        (Parser.program (.ofIndex ts i)) (Walk.program (ts.length - i) ts i) ∧
      (Walk.program (ts.length - i) ts i).Frugal ts i := by
  refine ⟨Parser.statement_progresses, Parser.expression_progresses, Parser.body_progresses,
    Parser.unclosed_or_mirrors, ?_, ?_⟩
  · intro ts i
    refine ⟨Parser.joined_mirrors _ rfl (by omega), ?_⟩
    exact (Walk.joined_affords _ ts i).frugal (by simp) (by simp)
  · intro ts i
    refine ⟨Parser.program_mirrors _ rfl (by omega), ?_⟩
    exact (Walk.program_affords _ ts i).frugal (by simp) (by simp)

theorem readers_progress_between_others :
    ∃ r', Parser.statement (.ofIndex [{ kind := .endFunction }, { kind := .identifier },
        { kind := .number }, { kind := .naming }, { kind := .identifier, text := "ա" },
        { kind := .endFunction }, { kind := .separator }] 1)
        (fun p d _ => Parser.body p d) = .ok r' ∧
      r'.result = .definition (.call "" {} [{ kind := .number }]) "ա" {} ∧
      r'.next = .ofIndex [{ kind := .endFunction }, { kind := .identifier },
        { kind := .number }, { kind := .naming }, { kind := .identifier, text := "ա" },
        { kind := .endFunction }, { kind := .separator }] 5 := by
  obtain ⟨j, hij, hj, hnext, hlocal⟩ := readers_progress.1.advances
    [{ kind := .quote }, { kind := .identifier }, { kind := .number }, { kind := .naming },
      { kind := .identifier, text := "ա" }, { kind := .endFunction }] 1
    ⟨.definition (.call "" {} [{ kind := .number }]) "ա" {},
      ⟨some { kind := .identifier, text := "ա" }, [{ kind := .endFunction }]⟩, by decide⟩
    (by with_unfolding_all rfl)
  obtain rfl : j = 5 := by
    have hl := congrArg (fun c : Cursor Token => c.ahead.length) hnext
    simp only [Cursor.ofIndex, List.length_drop, List.length_cons, List.length_nil] at hl hj
    omega
  refine hlocal _ fun k hk hk' => ?_
  obtain rfl | rfl | rfl | rfl | rfl : k = 1 ∨ k = 2 ∨ k = 3 ∨ k = 4 ∨ k = 5 := by omega
  all_goals rfl

/-- A body needs one round more than there are tokens ahead where they run out: one for no token,
and two for a lone value. -/
theorem body_overruns_at_end :
    ¬ Mirrors (LeavesAt []) (Parser.body {} (.ofIndex [] 0))
      (Walk.body (([] : List Token).length - 0) {} [] 0) ∧
    (Walk.body 0 {} [] 0).ending = .overrun ∧
    (Walk.body 1 {} [] 0).ending = .failed (.unclosedBody {}) ∧
    (Walk.body 1 {} [{ kind := .identifier }] 0).ending = .overrun ∧
    (Walk.body 2 {} [{ kind := .identifier }] 0).ending = .failed (.unclosedBody {}) := by
  refine ⟨?_, rfl, rfl, by cbv, by cbv⟩
  intro h
  have hfails : Parser.body {} (.ofIndex [] 0) = .error (.unclosedBody {}) := by
    rw [Parser.body]
    rfl
  rw [hfails] at h
  exact h

end Holov
