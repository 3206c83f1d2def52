import Holov.Proofs.Provenance.Lexing
import Holov.Proofs.Provenance.Parser
import Holov.Run

namespace Holov

/-- The token at which a runtime error is reported, and the call that raised it. -/
def RuntimeError.TracesTo (ts : List Token) (program : Block) : RuntimeError → Prop
  | unboundName name p => ∃ t ∈ ts, t.kind = .identifier ∧ t.text = name ∧ t.position = p
  | unknownFunction name p =>
    NamesCallee ts name p ∧ ∃ args, .call name p args ∈ partsOf program
  | wrongArity name _ found p =>
    NamesCallee ts name p ∧ ∃ args, .call name p args ∈ partsOf program ∧ args.length = found
  | output _ p =>
    ∃ f : Builtin, NamesCallee ts f.name p ∧ ∃ args, .call f.name p args ∈ partsOf program

/-- A failure is reported at a character of the source, and behind lexing at a token that it
describes. A refusal of a listing has no place. -/
def Failure.TracesTo (source : String) : Failure → Prop
  | lexing e => e.position.IsIn source
  | parsing e => e.position.IsIn source ∧ ∃ ts, tokenize source = .ok ts ∧ e.Blames ts
  | runtime e => e.position.IsIn source ∧
      ∃ ts program, tokenize source = .ok ts ∧ parse ts = .ok program ∧ e.TracesTo ts program
  | output _ => True

theorem Machine.refusal_list (m : Machine) (listing : Bool) (text : Unit → String) :
    (m.list listing text).2.sink.refusal = m.sink.refusal := by
  cases listing <;> rfl

/-- The stage at which a run fails. A sink refuses with the same words all along. -/
theorem run_failed_refusal {listing : Bool} {depth : Nat} {source : String} {m m' : Machine}
    {f : Failure} (h : run listing depth source m = (.failed f, m')) :
    (∃ e, tokenize source = .error e ∧ f = .lexing e) ∨ f = .output m.sink.refusal ∨
      ∃ ts, tokenize source = .ok ts ∧
        ((∃ e, parse ts = .error e ∧ f = .parsing e) ∨
          ∃ program m₁ e, parse ts = .ok program ∧ m₁.sink.refusal = m.sink.refusal ∧
            (execute depth program {} m₁).outcome = .failed e ∧ f = .runtime e) := by
  unfold run at h
  split at h
  · rename_i e ht
    cases h
    exact .inl ⟨e, ht, rfl⟩
  · rename_i ts ht
    dsimp only at h
    -- Each stage hands its machine on, and none of them changes the words of the refusal.
    generalize hm : (m.note (.lexed ts.length)).note (.tokenized ts.length) = m₀ at h
    have hr₀ : m₀.sink.refusal = m.sink.refusal := by rw [← hm]; rfl
    have hr₁ := m₀.refusal_list listing fun _ => listTokens ts
    split at h
    · rename_i m₁ hl
      cases h
      rw [hl] at hr₁
      exact .inr (.inl (by rw [hr₁, hr₀]))
    · rename_i m₁ hl
      rw [hl] at hr₁
      split at h
      · rename_i e hp
        cases h
        exact .inr (.inr ⟨ts, ht, .inl ⟨e, hp, rfl⟩⟩)
      · rename_i program hp
        have hr₂ := (m₁.note (.parsed program.length)).refusal_list listing
          fun _ => listProgram program
        split at h
        · rename_i m₂ hl₂
          cases h
          rw [hl₂] at hr₂
          exact .inr (.inl (by rw [hr₂]; exact congrArg _ (hr₁.trans hr₀)))
        · rename_i m₂ hl₂
          rw [hl₂] at hr₂
          split at h
          · cases h
          · rename_i e scope m₃ hx
            cases h
            have hr : m₂.sink.refusal = m.sink.refusal := hr₂.trans (hr₁.trans hr₀)
            exact .inr (.inr ⟨ts, ht, .inr ⟨program, m₂, e, hp, hr, by rw [hx], rfl⟩⟩)
          · cases h

/-- The stage at which a run fails. -/
theorem run_failed {listing : Bool} {depth : Nat} {source : String} {m m' : Machine} {f : Failure}
    (h : run listing depth source m = (.failed f, m')) :
    (∃ e, tokenize source = .error e ∧ f = .lexing e) ∨ (∃ details, f = .output details) ∨
      ∃ ts, tokenize source = .ok ts ∧
        ((∃ e, parse ts = .error e ∧ f = .parsing e) ∨
          ∃ program m₁ e, parse ts = .ok program ∧
            (execute depth program {} m₁).outcome = .failed e ∧ f = .runtime e) := by
  obtain hl | ho | ⟨ts, ht, hp | ⟨program, m₁, e, hp, -, hx⟩⟩ := run_failed_refusal h
  · exact .inl hl
  · exact .inr (.inl ⟨_, ho⟩)
  · exact .inr (.inr ⟨ts, ht, .inl hp⟩)
  · exact .inr (.inr ⟨ts, ht, .inr ⟨program, m₁, e, hp, hx⟩⟩)

theorem ParseError.Blames.exists_token {ts : List Token} {e : ParseError} (h : e.Blames ts) :
    ∃ t ∈ ts, e.position = t.position := by
  cases e with
  | unexpected t expected => exact ⟨t, h, rfl⟩
  | endOfInput expected p =>
    obtain ⟨t, ht, hp⟩ := h
    exact ⟨t, List.mem_of_getLast? ht, hp⟩
  | unclosedBody p =>
    obtain ⟨t, ht, -, hp⟩ := h
    exact ⟨t, ht, hp⟩

theorem RuntimeError.TracesTo.exists_token {ts : List Token} {program : Block} {e : RuntimeError}
    (h : e.TracesTo ts program) : ∃ t ∈ ts, e.position = t.position := by
  cases e with
  | unboundName name p =>
    obtain ⟨t, ht, -, -, hp⟩ := h
    exact ⟨t, ht, hp.symm⟩
  | unknownFunction name p =>
    obtain ⟨⟨t, ht, -, -, hp⟩, -⟩ := h
    exact ⟨t, ht, hp.symm⟩
  | wrongArity name expected found p =>
    obtain ⟨⟨t, ht, -, -, hp⟩, -⟩ := h
    exact ⟨t, ht, hp.symm⟩
  | output details p =>
    obtain ⟨f, ⟨t, ht, -, -, hp⟩, -⟩ := h
    exact ⟨t, ht, hp.symm⟩

/-- A literal that can be resolved has a value, so it is a name that has none. -/
theorem Token.Resolvable.kind_of_unbound {t : Token} (h : t.Resolvable)
    (hu : t.kind = .identifier ∨ Value.ofLiteral? t = none) : t.kind = .identifier := by
  rcases h with hi | hs
  · exact hi
  · rcases hu with hi | hn
    · exact hi
    · rw [hn] at hs
      cases hs

section Sources

variable {source : String} {ts : List Token} {program : Block} (ht : tokenize source = .ok ts)
  (hp : parse ts = .ok program)
include ht hp

/-- The tokens that the program of a source evaluates can be resolved. -/
theorem resolvable_of_parse : ∀ x ∈ partsOf program, ∀ t ∈ x.tokens, t.Resolvable := by
  intro x hx t hm
  obtain ⟨hts, hv⟩ := (writtenIn_of_parse hp x hx).tokens t hm
  exact resolvable_of_mem_tokens ht hts hv

theorem Expr.Raises.tracesTo {x : Expr} {e : RuntimeError} (hx : x ∈ partsOf program)
    (h : x.Raises e) : e.TracesTo ts program := by
  have hw := writtenIn_of_parse hp x hx
  cases h with
  | @unbound _ t hm hk =>
    have hi := (resolvable_of_parse ht hp x hx t hm).kind_of_unbound hk
    exact ⟨t, (hw.tokens t hm).1, hi, rfl, rfl⟩
  | unknown hb => exact ⟨hw.callee _ _ _ rfl, _, hx⟩
  | arity hl => exact ⟨hw.callee _ _ _ rfl, _, hx, rfl⟩
  | output details => exact ⟨_, hw.callee _ _ _ rfl, _, hx⟩

theorem execute_tracesTo {depth : Nat} {m : Machine} {e : RuntimeError}
    (h : (execute depth program {} m).outcome = .failed e) : e.TracesTo ts program := by
  have hb : ∀ x ∈ partsOf program, x ∈ partsOf program := fun x hx => hx
  obtain ⟨x, hx, hr⟩ := execute_raises hb Scope.within_empty depth m e h
  exact hr.tracesTo ht hp hx

/-- A token that is not an identifier always has a value. -/
theorem evaluate_literal {x : Expr} (hx : x ∈ partsOf program) {t : Token} (hm : t ∈ x.tokens)
    (hk : t.kind ≠ .identifier) (scope : Scope) : ∃ v, scope.evaluate t = .ok v := by
  cases hv : scope.evaluate t with
  | ok v => exact ⟨v, rfl⟩
  | error e =>
    have hu := (Scope.evaluate_eq_error hv).2
    exact absurd ((resolvable_of_parse ht hp x hx t hm).kind_of_unbound hu) hk

end Sources

/-- Every failure of a run is reported where the source has the cause for it. Only names can be
without a value. -/
theorem run_failure_traced {listing : Bool} {depth : Nat} {source : String} {m m' : Machine}
    {f : Failure} (h : run listing depth source m = (.failed f, m')) :
    f.TracesTo source ∧
      ∀ ts program, tokenize source = .ok ts → parse ts = .ok program →
        ∀ x ∈ partsOf program, ∀ t ∈ x.tokens, t.kind ≠ .identifier →
          ∀ scope : Scope, ∃ v, scope.evaluate t = .ok v := by
  refine ⟨?_, fun ts program ht hp x hx t hm hk scope => evaluate_literal ht hp hx hm hk scope⟩
  obtain ⟨e, ht, rfl⟩ | ⟨details, rfl⟩ | ⟨ts, ht, ⟨e, hp, rfl⟩ | ⟨program, m₁, e, hp, hx, rfl⟩⟩ :=
    run_failed h
  · exact isIn_of_lexError ht
  · trivial
  · have hb := blames_of_parse hp
    obtain ⟨t, hm, hpos⟩ := hb.exists_token
    refine ⟨?_, ts, ht, hb⟩
    rw [hpos]
    exact isIn_of_mem_tokens ht hm
  · have hb := execute_tracesTo ht hp hx
    obtain ⟨t, hm, hpos⟩ := hb.exists_token
    refine ⟨?_, ts, program, ht, hp, hb⟩
    rw [hpos]
    exact isIn_of_mem_tokens ht hm

/-- A name without a value, in a body that is called from another line. -/
theorem run_failure_traced_body :
    ∃ m', run false 1 "ա չափոցով գործառույթ «\nտպիր բ» որպես գ\nգ 5" {} =
        (.failed (.runtime (.unboundName "բ" ⟨2, 6⟩)), m') ∧
      (Failure.runtime (.unboundName "բ" ⟨2, 6⟩)).TracesTo
        "ա չափոցով գործառույթ «\nտպիր բ» որպես գ\nգ 5" := by
  have ho : (run false 1 "ա չափոցով գործառույթ «\nտպիր բ» որպես գ\nգ 5" {}).1 =
      .failed (.runtime (.unboundName "բ" ⟨2, 6⟩)) := by decide +kernel
  rcases hr : run false 1 "ա չափոցով գործառույթ «\nտպիր բ» որպես գ\nգ 5" {} with ⟨o, m'⟩
  rw [hr] at ho
  obtain rfl : o = .failed (.runtime (.unboundName "բ" ⟨2, 6⟩)) := ho
  exact ⟨m', rfl, (run_failure_traced hr).1⟩

end Holov
