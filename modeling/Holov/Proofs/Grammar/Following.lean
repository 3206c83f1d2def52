import Holov.Proofs.Grammar

namespace Holov.Grammar
open Holov.Parser

/-- `rest'` opens with a token of a watched kind only where `rest` does. -/
def MayFollow (watched : Kind → Prop) (rest rest' : List Token) : Prop :=
  ∀ t ∈ rest'.head?, watched t.kind → ∃ u ∈ rest.head?, u.kind = t.kind

/-- The kinds that would be read into an expression if they stood behind it. -/
def ExprWatches : Expr → Kind → Prop
  | .value _, _ => True
  | _, k => k = .caseEnding ∨ k = .separator

def StatementWatches : Statement → Kind → Prop
  | .definition _ _ _, _ => False
  | .expression e, k => ExprWatches e k ∨ k = .naming

theorem MayFollow.mono {w w' : Kind → Prop} {rest rest' : List Token}
    (h : MayFollow w' rest rest') (hw : ∀ k, w k → w' k) : MayFollow w rest rest' := by
  intro t ht hk
  exact h t ht (hw t.kind hk)

theorem MayFollow.cons (w : Kind → Prop) (t : Token) (rest rest' : List Token) :
    MayFollow w (t :: rest) (t :: rest') := by
  intro u hu hk
  exact ⟨u, hu, rfl⟩

theorem MayFollow.nil (w : Kind → Prop) (rest : List Token) : MayFollow w rest [] := by
  intro t ht
  cases ht

theorem MayFollow.append {w : Kind → Prop} {rest rest' : List Token} (h : MayFollow w rest rest')
    (pre : List Token) : MayFollow w (pre ++ rest) (pre ++ rest') := by
  cases pre with
  | nil => exact h
  | cons t pre => exact .cons w t _ _

theorem MayFollow.notNext {w p : Kind → Prop} {rest rest' : List Token}
    (h : MayFollow w rest rest') (hp : ∀ k, p k → w k) (hn : NotNext p rest) :
    NotNext p rest' := by
  intro t ht hk
  obtain ⟨u, hu, huk⟩ := h t ht (hp _ hk)
  exact hn u hu (huk ▸ hk)

theorem FullValue.replace {ts rest : List Token} {o : Operand} (h : FullValue ts o rest) :
    ∃ pre, ts = pre ++ rest ∧
      ∀ rest', MayFollow (· = .caseEnding) rest rest' → FullValue (pre ++ rest') o rest' := by
  cases h with
  | @marked v e _ hv he => exact ⟨[v, e], rfl, fun rest' _ => .marked hv he⟩
  | @unmarked v _ hv hn =>
    refine ⟨[v], rfl, fun rest' hr => .unmarked hv ?_⟩
    exact hr.notNext (fun _ => id) hn

theorem Enumeration.replace {ts vs rest : List Token} (h : Enumeration ts vs rest) :
    ∃ pre, ts = pre ++ rest ∧
      ∀ rest', MayFollow (fun k => k = .caseEnding ∨ k = .separator) rest rest' →
        Enumeration (pre ++ rest') vs rest' := by
  induction h with
  | done hn =>
    refine ⟨[], rfl, fun rest' hr => .done ?_⟩
    exact hr.notNext (fun _ => .inr) hn
  | @more s ts us rest vs o hs ho hm ih =>
    obtain ⟨pre₂, rfl, hmore⟩ := ih
    obtain ⟨pre₁, rfl, hvalue⟩ := ho.replace
    refine ⟨s :: (pre₁ ++ pre₂), by simp, fun rest' hr => ?_⟩
    rw [List.cons_append, List.append_assoc]
    exact .more hs (hvalue _ ((hr.mono fun _ => .inl).append pre₂)) (hmore rest' hr)

/-- A value and the values joined to it, as all expressions begin. -/
theorem replace_joined {ts us vs rest : List Token} {o : Operand} (hf : FullValue ts o us)
    (hj : Enumeration us vs rest) :
    ∃ pre, ts = pre ++ rest ∧
      ∀ rest', MayFollow (fun k => k = .caseEnding ∨ k = .separator) rest rest' →
        ∃ us', FullValue (pre ++ rest') o us' ∧ Enumeration us' vs rest' := by
  obtain ⟨pre₂, rfl, hmore⟩ := hj.replace
  obtain ⟨pre₁, rfl, hvalue⟩ := hf.replace
  refine ⟨pre₁ ++ pre₂, by simp, fun rest' hr => ⟨pre₂ ++ rest', ?_, hmore rest' hr⟩⟩
  rw [List.append_assoc]
  exact hvalue _ ((hr.mono fun _ => .inl).append pre₂)

theorem Statements.isValue_head {ts rest : List Token} {s : Statement} {b : Block}
    (h : Statements ts (s :: b) rest) : ∃ t us, ts = t :: us ∧ t.kind.isValue := by
  cases h with
  | cons hs hb => exact hs.isValue_head

-- By induction on the derivations. Only the function literal leads back to statements, and those
-- are followed by the same token on both sides.
mutual

theorem Expression.replace {ts rest : List Token} {e : Expr} (h : Expression ts e rest) :
    ∃ pre, ts = pre ++ rest ∧
      ∀ rest', MayFollow (ExprWatches e) rest rest' → Expression (pre ++ rest') e rest' := by
  cases h with
  | @markedCall _ us _ joined first callee hf hm hj hc =>
    obtain ⟨pre, rfl, hopen⟩ := replace_joined hf hj
    refine ⟨pre ++ [callee], by simp, fun rest' hr => ?_⟩
    obtain ⟨us', hf', hj'⟩ := hopen (callee :: rest') (.cons _ callee _ _)
    rw [List.append_assoc]
    exact .markedCall hf' hm hj' hc
  | @markedValue _ us _ joined first hf hm hj hn =>
    obtain ⟨pre, rfl, hopen⟩ := replace_joined hf hj
    refine ⟨pre, rfl, fun rest' hr => ?_⟩
    obtain ⟨us', hf', hj'⟩ := hopen rest' (hr.mono fun _ _ => trivial)
    exact .markedValue hf' hm hj' (hr.notNext (fun _ _ => trivial) hn)
  | @function _ us vs _ joined first p f close body hf hm hj hp hk hi hb hc =>
    obtain ⟨body₀, rfl, hbody⟩ := Statements.replace hb
    obtain ⟨pre, rfl, hopen⟩ := replace_joined hf hj
    refine ⟨pre ++ p :: f :: body₀ ++ [close], by simp, fun rest' hr => ?_⟩
    obtain ⟨us', hf', hj'⟩ := hopen (p :: f :: (body₀ ++ close :: rest')) (.cons _ p _ _)
    have hb' := hbody (close :: rest') fun s _ => .cons _ close _ _
    simp only [List.append_assoc, List.cons_append, List.nil_append]
    exact .function hf' hm hj' hp hk hi hb' hc
  | @call _ us vs ws _ joined further first next hf hm hj ha hr =>
    obtain ⟨pre₂, rfl, hargs⟩ := replace_joined ha hr
    obtain ⟨pre₁, rfl, hopen⟩ := replace_joined hf hj
    refine ⟨pre₁ ++ pre₂, by simp, fun rest' hr' => ?_⟩
    obtain ⟨ws', ha', hr''⟩ := hargs rest' hr'
    obtain ⟨us', hf', hj'⟩ := hopen (pre₂ ++ rest') (MayFollow.append hr' pre₂)
    rw [List.append_assoc]
    exact .call hf' hm hj' ha' hr''
  | @value _ us _ joined first hf hm hj hn =>
    obtain ⟨pre, rfl, hopen⟩ := replace_joined hf hj
    refine ⟨pre, rfl, fun rest' hr => ?_⟩
    obtain ⟨us', hf', hj'⟩ := hopen rest' (hr.mono fun _ _ => trivial)
    exact .value hf' hm hj' (hr.notNext (fun _ _ => trivial) hn)

theorem Sentence.replace {ts rest : List Token} {s : Statement} (h : Sentence ts s rest) :
    ∃ pre, ts = pre ++ rest ∧
      ∀ rest', MayFollow (StatementWatches s) rest rest' → Sentence (pre ++ rest') s rest' := by
  cases h with
  | @definition _ _ e as name he ha hi =>
    obtain ⟨pre, rfl, hexpr⟩ := Expression.replace he
    refine ⟨pre ++ [as, name], by simp, fun rest' hr => ?_⟩
    rw [List.append_assoc]
    exact .definition (hexpr (as :: name :: rest') (.cons _ as _ _)) ha hi
  | @expression _ _ e he hn =>
    obtain ⟨pre, rfl, hexpr⟩ := Expression.replace he
    refine ⟨pre, rfl, fun rest' hr => ?_⟩
    exact .expression (hexpr rest' (hr.mono fun _ => .inl)) (hr.notNext (fun _ => .inr) hn)

theorem Statements.replace {ts rest : List Token} {b : Block} (h : Statements ts b rest) :
    ∃ pre, ts = pre ++ rest ∧
      ∀ rest', (∀ s ∈ b.getLast?, MayFollow (StatementWatches s) rest rest') →
        Statements (pre ++ rest') b rest' :=
  match h with
  | .nil => ⟨[], rfl, fun rest' _ => .nil⟩
  | @Statements.cons _ us _ s b hs hb => by
    obtain ⟨pre₁, hts, hfirst⟩ := Sentence.replace hs
    obtain ⟨pre₂, hus, hmore⟩ := Statements.replace hb
    refine ⟨pre₁ ++ pre₂, by rw [hts, hus, List.append_assoc], fun rest' hr => ?_⟩
    rw [List.append_assoc]
    cases b with
    | nil =>
      have hs' : MayFollow (StatementWatches s) us (pre₂ ++ rest') := hus ▸ (hr s rfl).append pre₂
      exact .cons (hfirst _ hs') (hmore rest' (by simp))
    | cons s' b =>
      -- With nothing at all behind them the other statements still start somewhere.
      obtain ⟨t, vs, hpre, -⟩ := (hmore [] fun _ _ => .nil _ _).isValue_head
      rw [List.append_nil] at hpre
      have hs' : MayFollow (StatementWatches s) us (pre₂ ++ rest') := by
        rw [hus, hpre]
        exact .cons _ t _ _
      exact .cons (hfirst _ hs') (hmore rest' hr)

end

theorem Statements.append {ts us rest : List Token} {a b : Block} (ha : Statements ts a us)
    (hb : Statements us b rest) : Statements ts (a ++ b) rest := by
  induction a generalizing ts with
  | nil =>
    cases ha
    exact hb
  | cons s a ih =>
    cases ha with
    | cons hs hmore => exact .cons hs (ih hmore)

/-- A statement that is not a bare value takes in no value behind it. -/
theorem not_watches_of_isValue {s : Statement} {k : Kind} (hs : ∀ t, s ≠ .expression (.value t))
    (hk : k.isValue) : ¬ StatementWatches s k := by
  intro hw
  have hne : ∀ j : Kind, j.isValue = false → k ≠ j := fun j hj => kind_ne_of_isValue hk hj
  cases s with
  | definition e name p => exact hw
  | expression e =>
    cases e with
    | value t => exact hs t rfl
    | function params body =>
      rcases hw with (h | h) | h <;> exact hne _ rfl h
    | call callee p args =>
      rcases hw with (h | h) | h <;> exact hne _ rfl h

/-- Programs can be written one after the other, unless the first ends in a bare value, to which
the second would be an argument. -/
theorem Program.append {ts us : List Token} {a b : Block} (ha : Program ts a) (hb : Program us b)
    (hl : ∀ t, a.getLast? ≠ some (.expression (.value t))) : Program (ts ++ us) (a ++ b) := by
  obtain ⟨pre, rfl, hfirst⟩ := Statements.replace ha
  rw [List.append_nil]
  have hnext : ∀ s ∈ a.getLast?, MayFollow (StatementWatches s) [] us := by
    intro s hs t ht hw
    cases b with
    | nil =>
      cases hb
      cases ht
    | cons s' b =>
      obtain ⟨u, vs, rfl, hv⟩ := Statements.isValue_head hb
      cases ht
      exact absurd hw (not_watches_of_isValue (fun t hst => hl t (hst ▸ hs)) hv)
  exact Statements.append (hfirst us hnext) hb

/-- Neither a case ending nor a separator is next, with which values would go on. -/
abbrev Stops (rest : List Token) : Prop :=
  NotNext (fun k => k = .caseEnding ∨ k = .separator) rest

theorem stops_cons {t : Token} (he : t.kind ≠ .caseEnding) (hs : t.kind ≠ .separator)
    (rest : List Token) : Stops (t :: rest) := by
  intro u hu
  cases hu
  simp [he, hs]

theorem stops_of_isValue {t : Token} (h : t.kind.isValue) (rest : List Token) :
    Stops (t :: rest) :=
  stops_cons (kind_ne_of_isValue h rfl) (kind_ne_of_isValue h rfl) rest

section Enumerations

variable {α : Type} {separator value : α → Token} {written : α → List Token} {as : List α}
  (hs : ∀ a ∈ as, (separator a).kind = .separator) {rest : List Token} (hn : Stops rest)
include hs hn

theorem notNext_flatMap :
    NotNext (· = .caseEnding) (as.flatMap (fun a => separator a :: written a) ++ rest) := by
  cases as with
  | nil => exact fun t ht hk => hn t ht (.inl hk)
  | cons a as =>
    intro t ht
    cases ht
    simp [hs a List.mem_cons_self]

/-- Values that are written behind separators are read as an enumeration. -/
theorem enumeration_flatMap
    (hv : ∀ a ∈ as, ∀ rest, NotNext (· = .caseEnding) rest →
      ∃ marked, FullValue (written a ++ rest) ⟨value a, marked⟩ rest) :
    Enumeration (as.flatMap (fun a => separator a :: written a) ++ rest) (as.map value) rest := by
  induction as with
  | nil => exact .done fun t ht hk => hn t ht (.inr hk)
  | cons a as ih =>
    obtain ⟨hsa, hsas⟩ := List.forall_mem_cons.mp hs
    obtain ⟨hva, hvas⟩ := List.forall_mem_cons.mp hv
    have hnext : NotNext (· = .caseEnding)
        (as.flatMap (fun a => separator a :: written a) ++ rest) := notNext_flatMap hsas hn
    obtain ⟨marked, hfull⟩ := hva _ hnext
    rw [List.flatMap_cons, List.append_assoc, List.cons_append, List.map_cons]
    exact .more hsa hfull (ih hsas hvas)

end Enumerations

section Closing

variable {close : Token} (hc : close.kind = .endFunction)
include hc

theorem mayFollow_close {w : Kind → Prop} (hw : ¬ w .endFunction) (rest rest' : List Token) :
    MayFollow w rest (close :: rest') := by
  intro t ht hk
  cases ht
  rw [hc] at hk
  exact absurd hk hw

theorem notNext_close {p : Kind → Prop} (hp : ¬ p .endFunction) (rest : List Token) :
    NotNext p (close :: rest) := by
  intro t ht hk
  cases ht
  rw [hc] at hk
  exact hp hk

/-- A `»` may stand behind an expression, whatever stood there. -/
theorem Expression.closed {ts rest : List Token} {e : Expr} (h : Expression ts e rest)
    (rest' : List Token) :
    ∃ pre, ts = pre ++ rest ∧ Expression (pre ++ close :: rest') e (close :: rest') := by
  have hjoined := mayFollow_close hc (w := fun k => k = .caseEnding ∨ k = .separator) (by simp)
    rest rest'
  cases e with
  | value t =>
    -- A bare value looks at all kinds of tokens behind it, but none of them is a `»`.
    cases h with
    | markedValue hf hm hj hn =>
      obtain ⟨pre, rfl, hopen⟩ := replace_joined hf hj
      obtain ⟨us, hf', hj'⟩ := hopen _ hjoined
      exact ⟨pre, rfl, .markedValue hf' hm hj' (notNext_close hc (by simp) rest')⟩
    | value hf hm hj hn =>
      obtain ⟨pre, rfl, hopen⟩ := replace_joined hf hj
      obtain ⟨us, hf', hj'⟩ := hopen _ hjoined
      exact ⟨pre, rfl, .value hf' hm hj' (notNext_close hc (by simp [Kind.isValue]) rest')⟩
  | function params body =>
    obtain ⟨pre, rfl, hexpr⟩ := h.replace
    exact ⟨pre, rfl, hexpr _ hjoined⟩
  | call callee p args =>
    obtain ⟨pre, rfl, hexpr⟩ := h.replace
    exact ⟨pre, rfl, hexpr _ hjoined⟩

theorem Sentence.closed {ts rest : List Token} {s : Statement} (h : Sentence ts s rest)
    (rest' : List Token) :
    ∃ pre, ts = pre ++ rest ∧ Sentence (pre ++ close :: rest') s (close :: rest') := by
  cases s with
  | definition e name p =>
    obtain ⟨pre, rfl, hsentence⟩ := h.replace
    exact ⟨pre, rfl, hsentence _ fun t ht hk => hk.elim⟩
  | expression e =>
    cases h with
    | expression he hn =>
      obtain ⟨pre, rfl, he'⟩ := he.closed hc rest'
      exact ⟨pre, rfl, .expression he' (notNext_close hc (by simp) rest')⟩

theorem Statements.closed {ts rest : List Token} {b : Block} (h : Statements ts b rest)
    (rest' : List Token) :
    ∃ pre, ts = pre ++ rest ∧ Statements (pre ++ close :: rest') b (close :: rest') := by
  induction b generalizing ts with
  | nil =>
    cases h
    exact ⟨[], rfl, .nil⟩
  | cons s b ih =>
    cases h with
    | @cons _ us _ _ _ hs hb =>
      cases b with
      | nil =>
        cases hb
        obtain ⟨pre, rfl, hs'⟩ := hs.closed hc rest'
        exact ⟨pre, rfl, .cons hs' .nil⟩
      | cons s' b =>
        obtain ⟨pre₂, rfl, hmore⟩ := ih hb
        obtain ⟨pre₁, rfl, hfirst⟩ := hs.replace
        refine ⟨pre₁ ++ pre₂, by rw [List.append_assoc], ?_⟩
        rw [List.append_assoc]
        -- What follows the first statement is the next one on both sides.
        obtain ⟨t, vs, ht, hv⟩ := hmore.isValue_head
        cases pre₂ with
        | nil =>
          cases ht
          rw [hc] at hv
          cases hv
        | cons u pre₂ => exact .cons (hfirst _ (.cons _ u _ _)) hmore

/-- A program with a `»` behind it is a function body. -/
theorem Program.closed {ts : List Token} {b : Block} (h : Program ts b) (rest : List Token) :
    Statements (ts ++ close :: rest) b (close :: rest) := by
  obtain ⟨pre, rfl, hb⟩ := Statements.closed hc h rest
  rwa [List.append_nil]

end Closing

end Holov.Grammar
