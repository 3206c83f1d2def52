import Holov.Proofs.Execution.Parts
import Holov.Proofs.Grammar.Following

namespace Holov

/-- A value has a value token, a call has at least one argument and only value tokens for them, and
a function literal has at least one parameter. -/
def Expr.WellFormed : Expr → Prop
  | .value t => t.kind.isValue
  | .function params _ => params ≠ []
  | .call _ _ args => args ≠ [] ∧ ∀ t ∈ args, t.kind.isValue

instance : (x : Expr) → Decidable x.WellFormed
  | .value t => inferInstanceAs (Decidable (t.kind.isValue = true))
  | .function params _ => inferInstanceAs (Decidable (params ≠ []))
  | .call _ _ args => inferInstanceAs (Decidable (args ≠ [] ∧ ∀ t ∈ args, t.kind.isValue = true))

def Statement.isBareValue : Statement → Bool
  | .expression (.value _) => true
  | _ => false

/-- No bare value stands in front of another statement of the block. -/
def BareValuesLast (b : Block) : Prop :=
  ∀ s ∈ b.dropLast, s.isBareValue = false

instance (b : Block) : Decidable (BareValuesLast b) :=
  inferInstanceAs (Decidable (∀ s ∈ b.dropLast, s.isBareValue = false))

def Expr.BareValuesLast : Expr → Prop
  | .function _ body => Holov.BareValuesLast body
  | .value _ | .call _ _ _ => True

instance : (x : Expr) → Decidable x.BareValuesLast
  | .function _ body => inferInstanceAs (Decidable (Holov.BareValuesLast body))
  | .value _ | .call _ _ _ => inferInstanceAs (Decidable True)

def enumerate (ts : List Token) : List Token :=
  ts.intersperse { kind := .separator, text := Word.separator }

def nameToken (name : String) : Token :=
  { kind := .identifier, text := name }

/-- The names of parameters, as they are written: the last one is in front. -/
def parameterTokens (params : List String) : List Token :=
  (params.getLast?.toList ++ params.dropLast).map nameToken

mutual

def Expr.render : Expr → List Token
  | .value t => [t]
  | .function params body =>
    enumerate (parameterTokens params) ++ { kind := .parameter, text := Word.parameter } ::
      { kind := .function, text := Word.function } :: (renderBlock body ++ [{ kind := .endFunction }])
  | .call callee p args => ⟨.identifier, callee, p⟩ :: enumerate args

def Statement.render : Statement → List Token
  | .definition e name p =>
    e.render ++ [{ kind := .naming, text := Word.naming }, ⟨.identifier, name, p⟩]
  | .expression e => e.render

def renderBlock : List Statement → List Token
  | [] => []
  | s :: rest => s.render ++ renderBlock rest

end

/-- The kinds that would be read into a rendered expression if they stood behind it. -/
def Expr.Takes : Expr → Kind → Prop
  | .value _, k => k = .caseEnding ∨ k = .separator ∨ k = .parameter ∨ k.isValue
  | _, k => k = .caseEnding ∨ k = .separator

def Statement.Takes : Statement → Kind → Prop
  | .definition _ _ _, _ => False
  | .expression e, k => e.Takes k ∨ k = .naming

namespace Grammar
open Holov.Parser

theorem NotNext.mono {p q : Kind → Prop} {ts : List Token} (h : NotNext q ts)
    (hp : ∀ k, p k → q k) : NotNext p ts := by
  intro t ht hk
  exact h t ht (hp t.kind hk)

section WellFormed

theorem Enumeration.isValue {ts vs rest : List Token} (h : Enumeration ts vs rest) :
    ∀ t ∈ vs, t.kind.isValue := by
  induction h with
  | done hn => simp
  | more hs ho hm ih => exact List.forall_mem_cons.mpr ⟨ho.isValue, ih⟩

-- By induction on the derivations. Only the function literal leads back to statements.
mutual

theorem Expression.wellFormed {ts rest : List Token} {e : Expr} (h : Expression ts e rest) :
    ∀ x ∈ e.parts, x.WellFormed := by
  cases h with
  | markedCall hf hm hj hc =>
    have hargs := List.forall_mem_append.mpr ⟨hj.isValue, List.forall_mem_singleton.mpr hf.isValue⟩
    exact List.forall_mem_singleton.mpr ⟨by simp, hargs⟩
  | markedValue hf hm hj hn => exact List.forall_mem_singleton.mpr hf.isValue
  | function hf hm hj hp hk hi hb hc =>
    have hparams : ∀ vs : List Token, ∀ v, (vs ++ [v]).map Token.text ≠ [] := by simp
    exact List.forall_mem_cons.mpr ⟨hparams _ _, Statements.wellFormed hb⟩
  | call hf hm hj ha hr =>
    have hargs := List.forall_mem_append.mpr
      ⟨hj.isValue, List.forall_mem_cons.mpr ⟨ha.isValue, hr.isValue⟩⟩
    exact List.forall_mem_singleton.mpr ⟨by simp, hargs⟩
  | value hf hm hj hn => exact List.forall_mem_singleton.mpr hf.isValue

theorem Sentence.wellFormed {ts rest : List Token} {s : Statement} (h : Sentence ts s rest) :
    ∀ x ∈ s.parts, x.WellFormed := by
  cases h with
  | definition he ha hi => exact Expression.wellFormed he
  | expression he hn => exact Expression.wellFormed he

theorem Statements.wellFormed {ts rest : List Token} {b : Block} (h : Statements ts b rest) :
    ∀ x ∈ partsOf b, x.WellFormed := by
  cases h with
  | nil => simp [partsOf]
  | cons hs hb => exact forall_partsOf_cons.mpr ⟨Sentence.wellFormed hs, Statements.wellFormed hb⟩

end

end WellFormed

section Rendering

def behindSeparators (vs : List Token) : List Token :=
  vs.flatMap fun v => [{ kind := .separator, text := Word.separator }, v]

theorem enumerate_cons (v : Token) (vs : List Token) :
    enumerate (v :: vs) = v :: behindSeparators vs := by
  induction vs generalizing v with
  | nil => rfl
  | cons w vs ih =>
    have hw := ih w
    unfold enumerate at hw ⊢
    rw [List.intersperse_cons_cons, hw]
    rfl

theorem notNext_behindSeparators {vs rest : List Token}
    (hn : NotNext (fun k => k = .caseEnding ∨ k = .separator) rest) :
    NotNext (· = .caseEnding) (behindSeparators vs ++ rest) :=
  notNext_flatMap (fun _ _ => rfl) hn

theorem enumeration_behindSeparators {vs rest : List Token} (hv : ∀ v ∈ vs, v.kind.isValue)
    (hn : NotNext (fun k => k = .caseEnding ∨ k = .separator) rest) :
    Enumeration (behindSeparators vs ++ rest) vs rest := by
  have h : Enumeration (behindSeparators vs ++ rest) (vs.map id) rest :=
    enumeration_flatMap (fun _ _ => rfl) hn fun v hmem _ hr => ⟨false, .unmarked (hv v hmem) hr⟩
  rwa [List.map_id] at h

/-- What is enumerated is read as a value and the values joined to it, in front of anything that
does not go on with them. -/
theorem enumerate_derives {v : Token} {vs rest : List Token} (hv : v.kind.isValue)
    (hvs : ∀ w ∈ vs, w.kind.isValue)
    (hn : NotNext (fun k => k = .caseEnding ∨ k = .separator) rest) :
    ∃ us, FullValue (enumerate (v :: vs) ++ rest) ⟨v, false⟩ us ∧ Enumeration us vs rest := by
  rw [enumerate_cons]
  exact ⟨_, .unmarked hv (notNext_behindSeparators hn), enumeration_behindSeparators hvs hn⟩

theorem value_derives {t : Token} {rest : List Token} (ht : t.kind.isValue)
    (hn : NotNext (Expr.value t).Takes rest) : Expression (t :: rest) (.value t) rest := by
  have hf : FullValue (t :: rest) ⟨t, false⟩ rest := .unmarked ht (hn.mono fun k => .inl)
  refine .value hf rfl (.done (hn.mono fun k hk => .inr (.inl hk))) ?_
  exact hn.mono fun k hk => .inr (.inr hk)

theorem call_derives (callee : String) (p : Position) {args rest : List Token} (hne : args ≠ [])
    (hargs : ∀ t ∈ args, t.kind.isValue)
    (hn : NotNext (fun k => k = .caseEnding ∨ k = .separator) rest) :
    Expression (⟨.identifier, callee, p⟩ :: (enumerate args ++ rest)) (.call callee p args) rest := by
  obtain ⟨a, as, rfl⟩ := List.exists_cons_of_ne_nil hne
  obtain ⟨ha, has⟩ := List.forall_mem_cons.mp hargs
  obtain ⟨us, hfirst, hmore⟩ := enumerate_derives ha has hn
  -- The callee is a value itself, and what follows it opens with one.
  have hnext : ∀ k : Kind, k.isValue = false → NotNext (· = k) (enumerate (a :: as) ++ rest) := by
    intro k hk
    rw [enumerate_cons]
    exact notNext_of_isValue _ ha hk
  have hcallee : FullValue (⟨.identifier, callee, p⟩ :: (enumerate (a :: as) ++ rest))
      ⟨⟨.identifier, callee, p⟩, false⟩ (enumerate (a :: as) ++ rest) :=
    .unmarked rfl (hnext .caseEnding rfl)
  exact .call hcallee rfl (.done (hnext .separator rfl)) hfirst hmore

theorem function_derives {params : List String} {body : Block} {ts rest : List Token}
    {close : Token} (hne : params ≠ []) (hb : Statements ts body (close :: rest))
    (hc : close.kind = .endFunction) :
    Expression (enumerate (parameterTokens params) ++ { kind := .parameter, text := Word.parameter } ::
      { kind := .function, text := Word.function } :: ts) (.function params body) rest := by
  obtain ⟨init, last, rfl⟩ : ∃ init last, params = init ++ [last] :=
    ⟨_, _, (List.dropLast_concat_getLast hne).symm⟩
  have hparams : parameterTokens (init ++ [last]) = nameToken last :: init.map nameToken := by
    simp [parameterTokens]
  have hnames : ∀ t ∈ init.map nameToken ++ [nameToken last], t.kind = .identifier := by
    simp only [List.mem_append, List.mem_map, List.mem_singleton]
    rintro t (⟨name, -, rfl⟩ | rfl) <;> rfl
  have htexts : (init.map nameToken ++ [nameToken last]).map Token.text = init ++ [last] := by
    have hname : Token.text ∘ nameToken = id := rfl
    rw [← List.map_singleton, ← List.map_append, List.map_map, hname, List.map_id]
  have hvalues : ∀ t ∈ init.map nameToken, t.kind.isValue := by
    intro t ht
    rw [hnames t (List.mem_append_left _ ht)]
    rfl
  have hnext : NotNext (fun k => k = .caseEnding ∨ k = .separator)
      ({ kind := .parameter, text := Word.parameter } ::
        { kind := .function, text := Word.function } :: ts) := by
    intro t ht
    cases ht
    simp
  obtain ⟨us, hfirst, hmore⟩ := enumerate_derives (v := nameToken last) rfl hvalues hnext
  have h := Expression.function hfirst rfl hmore rfl rfl hnames hb hc
  rw [hparams]
  rwa [htexts] at h

theorem watches_of_takes {s : Statement} {k : Kind} (h : s.Takes k) :
    StatementWatches s k := by
  cases s with
  | definition e name p => exact h
  | expression e =>
    cases e with
    | value t => exact .inl trivial
    | function params body => exact h
    | call callee p args => exact h

theorem not_takes_endFunction (s : Statement) : ¬ s.Takes .endFunction := by
  cases s with
  | definition e name p => exact id
  | expression e => cases e <;> simp [Statement.Takes, Expr.Takes, Kind.isValue]

-- By induction on the syntax. Each construct is read back in front of any rest that it does not
-- take, and a statement that is not the last one has another statement behind it.
mutual

theorem renderExpr_derives (e : Expr) {rest : List Token} (hw : ∀ x ∈ e.parts, x.WellFormed)
    (hb : ∀ x ∈ e.parts, x.BareValuesLast) (hn : NotNext e.Takes rest) :
    Expression (e.render ++ rest) e rest := by
  have hself := hw e e.self_mem_parts
  cases e with
  | value t => exact value_derives hself hn
  | function params body =>
    have hclose : ∀ t ∈ (({ kind := .endFunction } : Token) :: rest).head?,
        t.kind = .endFunction := by
      intro t ht
      cases ht
      rfl
    have hbody := renderBlock_derives body (List.forall_mem_cons.mp hw).2
      (List.forall_mem_cons.mp hb).2 (List.forall_mem_cons.mp hb).1 hclose
    have h := function_derives hself hbody rfl
    simpa [Expr.render] using h
  | call callee p args => exact call_derives callee p hself.1 hself.2 hn

theorem renderStatement_derives (s : Statement) {rest : List Token}
    (hw : ∀ x ∈ s.parts, x.WellFormed) (hb : ∀ x ∈ s.parts, x.BareValuesLast)
    (hn : NotNext s.Takes rest) : Sentence (s.render ++ rest) s rest := by
  cases s with
  | definition e name p =>
    have hnaming : NotNext e.Takes ({ kind := .naming, text := Word.naming } ::
        ⟨.identifier, name, p⟩ :: rest) := by
      intro t ht
      cases ht
      cases e <;> simp [Expr.Takes, Kind.isValue]
    have he := renderExpr_derives e hw hb hnaming
    have h := Sentence.definition he rfl rfl
    simpa [Statement.render] using h
  | expression e =>
    have he := renderExpr_derives e hw hb (hn.mono fun k => .inl)
    exact .expression he (hn.mono fun k => .inr)

theorem renderBlock_derives (b : List Statement) {rest : List Token}
    (hw : ∀ x ∈ partsOf b, x.WellFormed) (hb : ∀ x ∈ partsOf b, x.BareValuesLast)
    (hl : BareValuesLast b) (hr : ∀ t ∈ rest.head?, t.kind = .endFunction) :
    Statements (renderBlock b ++ rest) b rest := by
  cases b with
  | nil => exact .nil
  | cons s b =>
    obtain ⟨hws, hwb⟩ := forall_partsOf_cons.mp hw
    obtain ⟨hbs, hbb⟩ := forall_partsOf_cons.mp hb
    have hmore : Statements (renderBlock b ++ rest) b rest := by
      refine renderBlock_derives b hwb hbb (fun s' hs' => hl s' ?_) hr
      cases b with
      | nil => cases hs'
      | cons s'' b => exact .tail s hs'
    have hnext : NotNext s.Takes (renderBlock b ++ rest) := by
      intro t ht htakes
      cases b with
      | nil => exact not_takes_endFunction s (hr t ht ▸ htakes)
      | cons s' b =>
        obtain ⟨u, us, hu, hv⟩ := hmore.isValue_head
        rw [hu] at ht
        cases ht
        have hbare : ∀ t, s ≠ .expression (.value t) := by
          rintro t rfl
          exact absurd (hl _ (.head _)) (by simp [Statement.isBareValue])
        exact not_watches_of_isValue hbare hv (watches_of_takes htakes)
    rw [renderBlock, List.append_assoc]
    exact .cons (renderStatement_derives s hws hbs hnext) hmore

end

end Rendering

end Grammar

/-- What parsing returns is well formed at every depth, whatever the tokens. A well-formed program
in which no bare value stands in front of another statement is read back from its rendering. -/
theorem parse_renderBlock :
    (∀ ts b, parse ts = .ok b → ∀ x ∈ partsOf b, x.WellFormed) ∧
    ∀ b, (∀ x ∈ partsOf b, x.WellFormed) → BareValuesLast b →
      (∀ x ∈ partsOf b, x.BareValuesLast) → parse (renderBlock b) = .ok b := by
  constructor
  · intro ts b h
    exact (Grammar.parse_eq_ok_iff.mp h).wellFormed
  · intro b hw hl hb
    apply Grammar.parse_eq_ok_iff.mpr
    have hend : ∀ t ∈ ([] : List Token).head?, t.kind = .endFunction := nofun
    have h := Grammar.renderBlock_derives b hw hb hl hend
    rwa [List.append_nil] at h

/-- A function of two parameters with a function in its body, a call of it, and a bare value. -/
theorem parse_renderBlock_nested :
    parse (renderBlock
        [.definition (.function ["ա", "բ"]
            [.definition (.function ["ա"] []) "գ" ⟨1, 40⟩,
              .expression (.value ⟨.identifier, "բ", ⟨2, 1⟩⟩)]) "դ" ⟨3, 5⟩,
          .expression (.call "դ" ⟨4, 1⟩ [⟨.number, "5", ⟨4, 3⟩⟩, ⟨.truth, "", ⟨4, 7⟩⟩]),
          .expression (.value ⟨.quote, "ե", ⟨4, 9⟩⟩)]) =
      .ok
        [.definition (.function ["ա", "բ"]
            [.definition (.function ["ա"] []) "գ" ⟨1, 40⟩,
              .expression (.value ⟨.identifier, "բ", ⟨2, 1⟩⟩)]) "դ" ⟨3, 5⟩,
          .expression (.call "դ" ⟨4, 1⟩ [⟨.number, "5", ⟨4, 3⟩⟩, ⟨.truth, "", ⟨4, 7⟩⟩]),
          .expression (.value ⟨.quote, "ե", ⟨4, 9⟩⟩)] :=
  parse_renderBlock.2 _ (by decide) (by decide) (by decide)

end Holov
