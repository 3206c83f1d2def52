import Holov.Program.Parser
import Holov.Proofs.Execution.Parts

namespace Holov

def ParseError.Blames (ts : List Token) : ParseError → Prop
  | unexpected t _ => t ∈ ts
  | endOfInput _ p => ∃ t ∈ ts.getLast?, p = t.position
  | unclosedBody p => ∃ t ∈ ts, t.kind = .function ∧ p = t.position

def NamesCallee (ts : List Token) (callee : String) (p : Position) : Prop :=
  ∃ t ∈ ts, t.kind.isValue ∧ t.text = callee ∧ t.position = p

structure Expr.WrittenIn (ts : List Token) (x : Expr) : Prop where
  tokens : ∀ t ∈ x.tokens, t ∈ ts ∧ t.kind.isValue
  callee : ∀ callee p args, x = .call callee p args → NamesCallee ts callee p

namespace Parser

/-- A parse that ends with a result in `R`, or with an error about a token of the list. -/
inductive Accounts (ts : List Token) {α : Type} (R : α → Prop) : Except ParseError α → Prop
  | ok {a : α} (h : R a) : Accounts ts R (.ok a)
  | error {e : ParseError} (h : e.Blames ts) : Accounts ts R (.error e)

theorem Accounts.bind {ts : List Token} {α β : Type} {R : α → Prop} {S : β → Prop}
    {x : Except ParseError α} {g : α → Except ParseError β} (h : Accounts ts R x)
    (hg : ∀ a, R a → Accounts ts S (g a)) : Accounts ts S (x >>= g) := by
  cases h with
  | ok h => exact hg _ h
  | error h => exact .error h

/-- A cursor over the list, which remembers the token in front of it. -/
def Over (ts : List Token) (c : Cursor Token) : Prop :=
  ∃ taken, ts = taken ++ c.ahead ∧ c.last? = taken.getLast?

variable {ts : List Token} {c : Cursor Token}

theorem unmet_blames (hne : ts ≠ []) (h : Over ts c) (expected : Expectation) :
    (unmet c expected).Blames ts := by
  obtain ⟨taken, hts, hl⟩ := h
  obtain ⟨last, _ | ⟨t, rest⟩⟩ := c
  · -- Everything has been taken, and there was something to take.
    obtain rfl : ts = taken := by simpa using hts
    obtain ⟨t, ht⟩ := Option.isSome_iff_exists.mp (List.getLast?_isSome.mpr hne)
    obtain rfl : last = some t := by rw [← ht]; exact hl
    exact ⟨t, ht, rfl⟩
  · rw [hts]
    exact List.mem_append_right _ (.head _)

theorem takeIf?_over (h : Over ts c) {p : Token → Bool} {r : c.Read Token}
    (hr : c.takeIf? p = some r) : p r.result ∧ r.result ∈ ts ∧ Over ts r.next := by
  obtain ⟨taken, hts, hl⟩ := h
  obtain ⟨last, _ | ⟨t, rest⟩⟩ := c
  · simp at hr
  · rw [Cursor.takeIf?_cons] at hr
    split at hr
    · rename_i hp
      cases hr
      refine ⟨hp, ?_, taken ++ [t], ?_, ?_⟩
      · rw [hts]
        exact List.mem_append_right _ (.head _)
      · simpa using hts
      · simp
    · cases hr

theorem takeKind?_over (h : Over ts c) {kind : Kind} {r : c.Read Token}
    (hr : takeKind? kind c = some r) : r.result.kind = kind ∧ r.result ∈ ts ∧ Over ts r.next := by
  obtain ⟨hk, hm, ho⟩ := takeIf?_over h hr
  exact ⟨by simpa using hk, hm, ho⟩

theorem requireKind_accounts (hne : ts ≠ []) (h : Over ts c) (kind : Kind)
    (expected : Expectation) :
    Accounts ts (fun r => r.result.kind = kind ∧ r.result ∈ ts ∧ Over ts r.next)
      (requireKind kind expected c) := by
  unfold requireKind
  split
  · rename_i r hr
    exact .ok (takeKind?_over h hr)
  · exact .error (unmet_blames hne h expected)

theorem operand?_over (h : Over ts c) {r : c.Read Operand} (hr : operand? c = some r) :
    (r.result.token ∈ ts ∧ r.result.token.kind.isValue) ∧ Over ts r.next := by
  obtain ⟨v, hv, he⟩ := Option.map_eq_some_iff.mp hr
  obtain ⟨hk, hm, ho⟩ := takeIf?_over h hv
  split at he
  · rename_i e hc
    cases he
    exact ⟨⟨hm, hk⟩, (takeKind?_over ho hc).2.2⟩
  · cases he
    exact ⟨⟨hm, hk⟩, ho⟩

theorem operand_accounts (hne : ts ≠ []) (h : Over ts c) (expected : Expectation) :
    Accounts ts (fun r => (r.result.token ∈ ts ∧ r.result.token.kind.isValue) ∧ Over ts r.next)
      (operand expected c) := by
  unfold operand
  split
  · rename_i r hr
    exact .ok (operand?_over h hr)
  · exact .error (unmet_blames hne h expected)

theorem joined_accounts (hne : ts ≠ []) (h : Over ts c) :
    Accounts ts (fun r => (∀ t ∈ r.values, t ∈ ts ∧ t.kind.isValue) ∧ Over ts r.next)
      (joined c) := by
  fun_induction joined c with
  | case1 c hs => exact .ok ⟨by simp, h⟩
  | case2 c s hs ih =>
    have ho := (takeKind?_over h hs).2.2
    refine (operand_accounts hne ho .valueAfterSeparator).bind fun v hv => ?_
    refine (ih v hv.2).bind fun more hm => ?_
    exact .ok ⟨List.forall_mem_cons.mpr ⟨hv.1, hm.1⟩, hm.2⟩

theorem parameterNames_accounts {vs : List Token} (h : ∀ t ∈ vs, t ∈ ts) :
    Accounts ts (fun _ => True) (vs.mapM parameterName) := by
  induction vs with
  | nil => exact .ok trivial
  | cons t vs ih =>
    obtain ⟨ht, hvs⟩ := List.forall_mem_cons.mp h
    rw [List.mapM_cons]
    have hp : Accounts ts (fun _ => True) (parameterName t) := by
      unfold parameterName
      split
      · exact .ok trivial
      · exact .error ht
    refine hp.bind fun _ _ => (ih hvs).bind fun _ _ => ?_
    exact .ok trivial

def AccountsBodies (ts : List Token) {n : Nat} (body : BodyReader n) : Prop :=
  ∀ p c h, (∃ t ∈ ts, t.kind = .function ∧ p = t.position) → Over ts c →
    Accounts ts (fun r => (∀ x ∈ partsOf r.result, x.WrittenIn ts) ∧ Over ts r.next) (body p c h)

theorem writtenIn_value {t : Token} (h : t ∈ ts ∧ t.kind.isValue) :
    ∀ x ∈ (Expr.value t).parts, x.WrittenIn ts := by
  refine List.forall_mem_singleton.mpr ⟨List.forall_mem_singleton.mpr h, ?_⟩
  intro callee p args hx
  cases hx

theorem writtenIn_call {callee : Token} {args : List Token} (hm : callee ∈ ts)
    (hv : callee.kind.isValue) (ha : ∀ t ∈ args, t ∈ ts ∧ t.kind.isValue) :
    ∀ x ∈ (Expr.call callee.text callee.position args).parts, x.WrittenIn ts := by
  refine List.forall_mem_singleton.mpr ⟨ha, ?_⟩
  intro name p args' hx
  cases hx
  exact ⟨callee, hm, hv, rfl, rfl⟩

theorem writtenIn_function (params : List String) {b : Block}
    (hb : ∀ x ∈ partsOf b, x.WrittenIn ts) :
    ∀ x ∈ (Expr.function params b).parts, x.WrittenIn ts := by
  refine List.forall_mem_cons.mpr ⟨⟨by simp [Expr.tokens], ?_⟩, hb⟩
  intro name p args hx
  cases hx

section Bodies

variable {body : BodyReader c.ahead.length}

theorem expression_accounts (hne : ts ≠ []) (h : Over ts c) (hb : AccountsBodies ts body) :
    Accounts ts (fun r => (∀ x ∈ r.result.parts, x.WrittenIn ts) ∧ Over ts r.next)
      (expression c body) := by
  unfold expression
  refine (operand_accounts hne h .value).bind fun first hf => ?_
  refine (joined_accounts hne hf.2).bind fun rest hr => ?_
  have hvalues : ∀ t ∈ rest.values ++ [first.result.token], t ∈ ts ∧ t.kind.isValue :=
    List.forall_mem_append.mpr ⟨hr.1, List.forall_mem_singleton.mpr hf.1⟩
  dsimp only
  split
  · split
    · rename_i callee hc
      obtain ⟨hk, hm, ho⟩ := takeKind?_over hr.2 hc
      exact .ok ⟨writtenIn_call hm (by rw [hk]; rfl) hvalues, ho⟩
    · exact .ok ⟨writtenIn_value hf.1, hr.2⟩
  · split
    · rename_i p hp
      obtain ⟨-, -, ho⟩ := takeKind?_over hr.2 hp
      refine (requireKind_accounts hne ho .function _).bind fun word hw => ?_
      refine (parameterNames_accounts fun t ht => (hvalues t ht).1).bind fun params _ => ?_
      refine (hb _ _ _ ⟨_, hw.2.1, hw.1, rfl⟩ hw.2.2).bind fun block hblock => ?_
      exact .ok ⟨writtenIn_function params hblock.1, hblock.2⟩
    · split
      · rename_i arg ha
        obtain ⟨harg, ho⟩ := operand?_over hr.2 ha
        refine (joined_accounts hne ho).bind fun more hmore => ?_
        have hargs := List.forall_mem_append.mpr
          ⟨hr.1, List.forall_mem_cons.mpr ⟨harg, hmore.1⟩⟩
        exact .ok ⟨writtenIn_call hf.1.1 hf.1.2 hargs, hmore.2⟩
      · exact .ok ⟨writtenIn_value hf.1, hr.2⟩

theorem statement_accounts (hne : ts ≠ []) (h : Over ts c) (hb : AccountsBodies ts body) :
    Accounts ts (fun r => (∀ x ∈ r.result.parts, x.WrittenIn ts) ∧ Over ts r.next)
      (statement c body) := by
  unfold statement
  refine (expression_accounts hne h hb).bind fun e he => ?_
  split
  · exact .ok he
  · rename_i as ha
    obtain ⟨-, -, ho⟩ := takeKind?_over he.2 ha
    refine (requireKind_accounts hne ho .identifier _).bind fun name hn => ?_
    exact .ok ⟨he.1, hn.2.2⟩

end Bodies

theorem body_accounts (hne : ts ≠ []) (p : Position)
    (hp : ∃ t ∈ ts, t.kind = .function ∧ p = t.position) (h : Over ts c) :
    Accounts ts (fun r => (∀ x ∈ partsOf r.result, x.WrittenIn ts) ∧ Over ts r.next)
      (body p c) := by
  fun_induction body p c with
  | case1 p c hn => exact .error hp
  | case2 p c t hn close hc => exact .ok ⟨by simp [partsOf], (takeKind?_over h hc).2.2⟩
  | case3 p c t hn hc ihs ih =>
    refine (statement_accounts hne h fun q d _ hq hd => ihs q d ‹_› hq hd).bind fun s hs => ?_
    refine (ih s hp hs.2).bind fun more hmore => ?_
    exact .ok ⟨forall_partsOf_cons.mpr ⟨hs.1, hmore.1⟩, hmore.2⟩

theorem program_accounts (hne : ts ≠ []) (h : Over ts c) :
    Accounts ts (fun b => ∀ x ∈ partsOf b, x.WrittenIn ts) (program c) := by
  fun_induction program c with
  | case1 c hn => exact .ok (by simp [partsOf])
  | case2 c t hn hk =>
    obtain ⟨taken, rfl, -⟩ := h
    exact .error (List.mem_append_right _ (List.mem_of_mem_head? hn))
  | case3 c t hn hk ih =>
    refine (statement_accounts hne h fun q d _ hq hd => body_accounts hne q hq hd).bind
      fun s hs => ?_
    refine (ih s hs.2).bind fun more hmore => ?_
    exact .ok (forall_partsOf_cons.mpr ⟨hs.1, hmore⟩)

end Parser

theorem parse_accounts (ts : List Token) :
    Parser.Accounts ts (fun b => ∀ x ∈ partsOf b, x.WrittenIn ts) (parse ts) := by
  cases ts with
  | nil =>
    rw [parse, Parser.program]
    exact .ok (by simp [partsOf])
  | cons t ts => exact Parser.program_accounts (by simp) ⟨[], rfl, rfl⟩

theorem writtenIn_of_parse {ts : List Token} {b : Block} (h : parse ts = .ok b) :
    ∀ x ∈ partsOf b, x.WrittenIn ts := by
  have ha := parse_accounts ts
  rw [h] at ha
  cases ha with
  | ok hb => exact hb

theorem blames_of_parse {ts : List Token} {e : ParseError} (h : parse ts = .error e) :
    e.Blames ts := by
  have ha := parse_accounts ts
  rw [h] at ha
  cases ha with
  | error he => exact he

end Holov
