import Holov.Proofs.Definitions
import Holov.Proofs.Grammar.Following
import Holov.Proofs.Lexing.Image
import Holov.Proofs.Provenance

namespace Holov

def OneLine (s : String) : Prop :=
  '\n' ∉ s.toList

instance (s : String) : Decidable (OneLine s) :=
  inferInstanceAs (Decidable (¬ _))

theorem oneLine_append {s t : String} : OneLine (s ++ t) ↔ OneLine s ∧ OneLine t := by
  rw [OneLine, String.toList_append, List.mem_append, not_or]
  rfl

theorem oneLine_of_forall {s : String} {p : Char → Bool} (h : ∀ c ∈ s.toList, p c)
    (hn : p '\n' = false) : OneLine s := by
  intro hm
  rw [h _ hm] at hn
  cases hn

theorem isDigit_of_mem_repr {n : Nat} {c : Char} (h : c ∈ n.repr.toList) : c.isDigit := by
  rw [Nat.repr, String.toList_ofList] at h
  exact Nat.isDigit_of_mem_toDigits (by decide) (by decide) h

theorem oneLine_repr (n : Nat) : OneLine n.repr :=
  oneLine_of_forall (p := Char.isDigit) (fun _ => isDigit_of_mem_repr) rfl

theorem not_mem_hex {c : Char} (h : ∀ d < 16, c ≠ Nat.digitChar d) (n : Nat) :
    c ∉ Nat.toDigits 16 n := by
  induction n using Nat.strongRecOn with
  | ind n ih =>
    rw [Nat.toDigits_eq_if (by decide)]
    split
    · rename_i hn
      simpa using h n hn
    · have hrest := ih (n / 16) (by omega)
      have hlast := h (n % 16) (by omega)
      simp [hrest, hlast]

/-- A newline is escaped, whatever the delimiter. -/
theorem newline_not_mem_escapeChar (delimiter c : Char) : '\n' ∉ escapeChar delimiter c := by
  unfold escapeChar
  split_ifs with h₀ ht hr hn hd hu
  · decide
  · decide
  · decide
  · decide
  · simpa using Ne.symm hn
  · simpa using not_mem_hex (by decide) c.toNat
  · simpa using Ne.symm hn

theorem oneLine_quotedChar (c : Char) : OneLine (quotedChar c) := by
  rw [OneLine, quotedChar, String.toList_ofList]
  simpa using newline_not_mem_escapeChar '\x27' c

theorem oneLine_quotedText (s : String) : OneLine (quotedText s) := by
  rw [OneLine, quotedText, String.toList_ofList]
  simpa using fun c _ => newline_not_mem_escapeChar '\x22' c

theorem Position.oneLine_report {p : Position} {message : String} :
    OneLine (p.report message) ↔ OneLine message := by
  have hline := oneLine_repr p.line
  have hcolumn := oneLine_repr p.column
  simp only [report, text, oneLine_append, hline, hcolumn, and_true]
  exact and_iff_right (by decide)

theorem LexError.oneLine_message (e : LexError) : OneLine e.message := by
  refine Position.oneLine_report.mpr ?_
  cases e.fault with
  | stray c =>
    exact oneLine_append.mpr ⟨oneLine_append.mpr ⟨by decide, oneLine_quotedChar c⟩, by decide⟩
  | unclosedComment => decide
  | unclosedQuote => decide

theorem Token.oneLine_describe {t : Token} (h : OneLine t.text) : OneLine t.describe := by
  have hq : OneLine ("«" ++ t.text ++ "»") :=
    oneLine_append.mpr ⟨oneLine_append.mpr ⟨by decide, h⟩, by decide⟩
  have ho : OneLine ("'" ++ t.text ++ "'") :=
    oneLine_append.mpr ⟨oneLine_append.mpr ⟨by decide, h⟩, by decide⟩
  unfold describe
  split
  · decide
  · decide
  · exact hq
  · exact ho

theorem Expectation.oneLine_text (expected : Expectation) : OneLine expected.text := by
  cases expected <;> decide

theorem ParseError.oneLine_message {e : ParseError}
    (h : ∀ t expected, e = .unexpected t expected → OneLine t.text) : OneLine e.message := by
  refine Position.oneLine_report.mpr ?_
  cases e with
  | unexpected t expected =>
    have ht := Token.oneLine_describe (h t expected rfl)
    have he := expected.oneLine_text
    simp only [oneLine_append, ht, he]
    decide
  | endOfInput expected p =>
    have he := expected.oneLine_text
    simp only [oneLine_append, he]
    decide
  | unclosedBody p =>
    dsimp only
    decide

def RuntimeError.subject : RuntimeError → String
  | unboundName name _ | wrongArity name _ _ _ | unknownFunction name _ => name
  | output details _ => details

theorem RuntimeError.oneLine_message {e : RuntimeError} : OneLine e.message ↔ OneLine e.subject := by
  refine Position.oneLine_report.trans ?_
  cases e with
  | unboundName name p =>
    simp only [oneLine_append, subject]
    exact ⟨fun h => h.1.2, fun h => ⟨⟨by decide, h⟩, by decide⟩⟩
  | wrongArity name expected found p =>
    have he := oneLine_repr expected
    have hf := oneLine_repr found
    simp only [oneLine_append, he, hf, subject]
    exact ⟨fun h => h.1.1.1.1.1.2, fun h => by simp only [h]; decide⟩
  | unknownFunction name p =>
    simp only [oneLine_append, subject]
    exact ⟨fun h => h.1.2, fun h => ⟨⟨by decide, h⟩, by decide⟩⟩
  | output details p =>
    simp only [oneLine_append, subject]
    exact ⟨fun h => h.1.2, fun h => ⟨⟨by decide, h⟩, by decide⟩⟩

/-- The failure is about the token and repeats its text as it stands. -/
def Failure.Repeats (f : Failure) (t : Token) : Prop :=
  (∃ expected, f = .parsing (.unexpected t expected)) ∨
    f = .runtime (.unknownFunction t.text t.position)

/-- A quoted text is repeated with all its lines. -/
theorem Failure.Repeats.oneLine {f : Failure} {t : Token} (h : f.Repeats t) (hk : t.kind = .quote)
    (hl : OneLine f.message) : OneLine t.text := by
  rcases h with ⟨expected, rfl⟩ | rfl
  · have hm := Position.oneLine_report.mp (oneLine_append.mp hl).2
    have hd : OneLine t.describe := (oneLine_append.mp (oneLine_append.mp hm).1).2
    simp only [Token.describe, hk] at hd
    exact (oneLine_append.mp (oneLine_append.mp hd).1).2
  · exact RuntimeError.oneLine_message.mp (oneLine_append.mp hl).2

theorem ContentsWellFormed.admits {ts : List Token}
    (h : ContentsWellFormed (ts.map Token.content)) : ∀ t ∈ ts, t.kind.Admits t.text := by
  induction ts with
  | nil => nofun
  | cons t ts ih => exact List.forall_mem_cons.mpr ⟨h.1, ih h.2.2⟩

/-- Only quoted texts have newlines. -/
theorem Kind.Admits.oneLine {k : Kind} {text : String} (h : k.Admits text) (hk : k ≠ .quote) :
    OneLine text := by
  have hkeywords : ∀ entry ∈ Lexeme.keywords, OneLine entry.1 := by decide
  cases k with
  | quote => exact absurd rfl hk
  | endFunction | caseEnding =>
    obtain rfl : text = "" := h
    decide
  | number => exact oneLine_of_forall h.2 rfl
  | identifier => exact oneLine_of_forall h.2.1 rfl
  | truth | falsity | naming | function | separator | parameter => exact hkeywords _ h

theorem oneLine_of_mem_tokens {source : String} {ts : List Token} (h : tokenize source = .ok ts)
    {t : Token} (ht : t ∈ ts) (hk : t.kind ≠ .quote) : OneLine t.text := by
  obtain ⟨ls, -, hf, hd⟩ := exists_denoteAll h
  exact ((hd.wellFormed hf).admits t ht).oneLine hk

namespace Grammar

variable {all : List Token}

-- By induction on the derivations, which read parts of the whole list.
mutual

theorem Expression.derived {ts rest : List Token} {e : Expr} (h : Expression ts e rest)
    (hts : ts ⊆ all) : ∀ st ∈ e.statements, ∃ us vs, us ⊆ all ∧ Sentence us st vs := by
  cases h with
  | markedCall hf hm hj hc => nofun
  | markedValue hf hm hj hn => nofun
  | @function _ us vs _ joined first p f close body hf hm hj hp hk hi hb hc =>
    obtain ⟨pre, rfl, -⟩ := replace_joined hf hj
    have hvs : vs ⊆ all := fun t ht => hts (by simp [ht])
    exact Statements.derived hb hvs
  | call hf hm hj ha hr => nofun
  | value hf hm hj hn => nofun

theorem Sentence.derived {ts rest : List Token} {s : Statement} (h : Sentence ts s rest)
    (hts : ts ⊆ all) : ∀ st ∈ s.statements, ∃ us vs, us ⊆ all ∧ Sentence us st vs := by
  cases h with
  | definition he ha hi =>
    exact List.forall_mem_cons.mpr ⟨⟨_, _, hts, .definition he ha hi⟩, Expression.derived he hts⟩
  | expression he hn =>
    exact List.forall_mem_cons.mpr ⟨⟨_, _, hts, .expression he hn⟩, Expression.derived he hts⟩

theorem Statements.derived {ts rest : List Token} {b : Block} (h : Statements ts b rest)
    (hts : ts ⊆ all) : ∀ st ∈ statementsOf b, ∃ us vs, us ⊆ all ∧ Sentence us st vs := by
  cases h with
  | nil => nofun
  | @cons _ us _ s b hs hb =>
    have hus : us ⊆ all := by
      obtain ⟨pre, rfl, -⟩ := hs.replace
      exact fun t ht => hts (by simp [ht])
    exact List.forall_mem_append.mpr ⟨Sentence.derived hs hts, Statements.derived hb hus⟩

end

/-- Every statement of a program, at every depth, is derived from tokens of the list. -/
theorem exists_sentence {ts : List Token} {program : Block} (hp : parse ts = .ok program)
    {st : Statement} (hst : st ∈ statementsOf program) : ∃ us vs, us ⊆ ts ∧ Sentence us st vs :=
  (parse_eq_ok_iff.mp hp).derived (List.Subset.refl ts) st hst

/-- The name of a definition is that of an identifier. -/
theorem Sentence.exists_name {ts rest : List Token} {e : Expr} {name : String} {p : Position}
    (h : Sentence ts (.definition e name p) rest) :
    ∃ t ∈ ts, t.kind = .identifier ∧ t.text = name := by
  cases h with
  | @definition _ _ _ as t he ha hi =>
    obtain ⟨pre, rfl, -⟩ := he.replace
    exact ⟨t, by simp, hi, rfl⟩

end Grammar

/-- The functions of a program are defined under the names of identifiers. -/
theorem DefinesFunction.exists_token {ts : List Token} {program : Block}
    (hp : parse ts = .ok program) {name : String} {r : Routine}
    (h : DefinesFunction program name r) : ∃ t ∈ ts, t.kind = .identifier ∧ t.text = name := by
  obtain ⟨p, hdef⟩ := h
  obtain ⟨us, vs, hus, hs⟩ := Grammar.exists_sentence hp hdef
  obtain ⟨t, ht, hname⟩ := hs.exists_name
  exact ⟨t, hus ht, hname⟩

/-- What a runtime error repeats that the tokens around it do not show: the name under which a
function was found, and the words of the sink. -/
def RuntimeError.FoundOneLine : RuntimeError → Prop
  | wrongArity name _ _ _ => OneLine name
  | output details _ => OneLine details
  | unboundName _ _ | unknownFunction _ _ => True

/-- A run that ended on a machine with a one-line refusal, if with an error, then with one that
repeats what was found on one line. -/
structure EndsOneLine (o : Outcome RuntimeError) (m : Machine) : Prop where
  error : ∀ e, o = .failed e → e.FoundOneLine
  refusal : OneLine m.sink.refusal

theorem EndsOneLine.completed {m : Machine} (hm : OneLine m.sink.refusal) :
    EndsOneLine .completed m :=
  ⟨nofun, hm⟩

theorem EndsOneLine.failed {e : RuntimeError} {m : Machine} (he : e.FoundOneLine)
    (hm : OneLine m.sink.refusal) : EndsOneLine (.failed e) m :=
  ⟨fun _ heq => Outcome.failed.inj heq ▸ he, hm⟩

section Runners

variable {program : Block} (hnames : ∀ name r, DefinesFunction program name r → OneLine name)

def RunsOneLine (program : Block) (enter : BodyRunner) : Prop :=
  ∀ b s m, b ⊆ statementsOf program → s.DefinedIn program → OneLine m.sink.refusal →
    EndsOneLine (enter b s m).1 (enter b s m).2

variable {enter : BodyRunner} (he : RunsOneLine program enter) {scope : Scope}
  (hs : scope.DefinedIn program) {m : Machine} (hm : OneLine m.sink.refusal)
include hnames he hs hm

theorem callWith_oneLine (callee : String) (p : Position) (args : List Token) :
    EndsOneLine (callWith enter scope callee p args m).1
      (callWith enter scope callee p args m).2 := by
  cases callCase scope callee args with
  | unknown hc =>
    rw [callWith_unknown hc]
    exact .failed trivial hm
  | argument hc ha =>
    rw [callWith_argument hc ha]
    obtain ⟨t, -, hv⟩ := Scope.evaluateAll_eq_error ha
    obtain ⟨rfl, -⟩ := Scope.evaluate_eq_error hv
    exact .failed trivial hm
  | builtin hc ha =>
    rw [callWith_builtin hc ha, Machine.callBuiltin_eq]
    dsimp only
    split
    · exact .completed hm
    · exact .failed hm hm
  | arity hc ha hl =>
    rw [callWith_arity hc ha hl]
    exact .failed (hnames _ _ (hs _ _ (Scope.callee?_routine.mp hc))) hm
  | routine hc ha hl =>
    rw [callWith_routine hc ha hl]
    have hdef := hs _ _ (Scope.callee?_routine.mp hc)
    exact he _ _ _ hdef.body_subset (hs.enter _) hm

theorem executeStatement_oneLine (st : Statement) :
    EndsOneLine (executeStatement enter scope m st).outcome
      (executeStatement enter scope m st).machine := by
  obtain ⟨callee, p, args, rfl⟩ | ⟨m', hx, hsink⟩ | ⟨name, p, -, hx⟩ :=
    executeStatement_cases enter scope m st
  · exact callWith_oneLine hnames he hs hm callee p args
  · rw [hx]
    exact .completed (hsink ▸ hm)
  · rw [hx]
    exact .failed trivial hm

theorem executeBlock_oneLine {b : Block} (hb : b ⊆ statementsOf program) :
    EndsOneLine (executeBlock enter b scope m).outcome (executeBlock enter b scope m).machine := by
  induction b generalizing scope m with
  | nil => exact .completed hm
  | cons st b ih =>
    obtain ⟨hst, hb⟩ := List.cons_subset.mp hb
    have hfirst := executeStatement_oneLine hnames he hs hm st
    by_cases ho : (executeStatement enter scope m st).outcome = .completed
    · rw [executeBlock_cons_of_completed ho]
      exact ih (hs.bind hst) hfirst.refusal hb
    · rw [executeBlock_cons_of_ne ho]
      exact hfirst

end Runners

section Program

variable {program : Block} (hnames : ∀ name r, DefinesFunction program name r → OneLine name)
include hnames

theorem runBody_oneLine (depth : Nat) : RunsOneLine program (runBody depth) := by
  induction depth with
  | zero => exact fun b s m _ _ hm => ⟨nofun, hm⟩
  | succ depth ih => exact fun b s m hb hs hm => executeBlock_oneLine hnames ih hs hm hb

/-- The errors of a program whose functions have one-line names repeat what was found on one
line. -/
theorem execute_oneLine (depth : Nat) {m : Machine} (hm : OneLine m.sink.refusal)
    {e : RuntimeError} (h : (execute depth program {} m).outcome = .failed e) :
    e.FoundOneLine := by
  have hs : Scope.DefinedIn program {} := nofun
  have hrun := runBody_oneLine hnames depth
  exact (executeBlock_oneLine hnames hrun hs hm fun st => mem_statementsOf).error e h

end Program

/-- The report of a failed run is on one line, unless it repeats a quoted text that is not. -/
theorem run_report_oneLine {listing : Bool} {depth : Nat} {source : String} {m m' : Machine}
    {f : Failure} (h : run listing depth source m = (.failed f, m'))
    (hm : OneLine m.sink.refusal) :
    OneLine f.message ↔ ∀ ts, tokenize source = .ok ts →
      ∀ t ∈ ts, t.kind = .quote → f.Repeats t → OneLine t.text := by
  constructor
  · intro hl ts _ t _ hk hr
    exact hr.oneLine hk hl
  · intro hquotes
    obtain ⟨e, -, rfl⟩ | rfl | ⟨ts, ht, ⟨e, hp, rfl⟩ | ⟨program, m₁, e, hp, hr, hx, rfl⟩⟩ :=
      run_failed_refusal h
    · exact oneLine_append.mpr ⟨by decide, e.oneLine_message⟩
    · exact oneLine_append.mpr ⟨oneLine_append.mpr ⟨by decide, hm⟩, by decide⟩
    · refine oneLine_append.mpr ⟨by decide, ParseError.oneLine_message ?_⟩
      rintro t expected rfl
      have hts : t ∈ ts := blames_of_parse hp
      by_cases hk : t.kind = .quote
      · exact hquotes ts ht t hts hk (.inl ⟨expected, rfl⟩)
      · exact oneLine_of_mem_tokens ht hts hk
    · refine oneLine_append.mpr ⟨by decide, RuntimeError.oneLine_message.mpr ?_⟩
      have htraced := execute_tracesTo ht hp hx
      have hfound := execute_oneLine (fun name r hdef => by
        obtain ⟨t, hts, hk, rfl⟩ := hdef.exists_token hp
        exact oneLine_of_mem_tokens ht hts (by rw [hk]; nofun)) depth (hr ▸ hm) hx
      cases e with
      | unboundName name p =>
        obtain ⟨t, hts, hk, rfl, -⟩ := htraced
        exact oneLine_of_mem_tokens ht hts (by rw [hk]; nofun)
      | wrongArity name expected found p => exact hfound
      | unknownFunction name p =>
        obtain ⟨⟨t, hts, -, rfl, rfl⟩, -⟩ := htraced
        by_cases hk : t.kind = .quote
        · exact hquotes ts ht t hts hk (.inr rfl)
        · exact oneLine_of_mem_tokens ht hts hk
      | output details p => exact hfound

/-- A name without a value, behind a quoted text of two lines, on a sink that is full. -/
theorem run_report_oneLine_unbound :
    ∃ f m', run false 0 "«ա\nբ» որպես գ տպիր դ" { sink := { limit := some 0, refusal := "full" } } =
      (.failed f, m') ∧ OneLine f.message := by
  have ho : (run false 0 "«ա\nբ» որպես գ տպիր դ"
      { sink := { limit := some 0, refusal := "full" } }).1 =
        .failed (.runtime (.unboundName "դ" ⟨2, 17⟩)) := by decide +kernel
  rcases hr : run false 0 "«ա\nբ» որպես գ տպիր դ"
    { sink := { limit := some 0, refusal := "full" } } with ⟨o, m'⟩
  rw [hr] at ho
  obtain rfl : o = .failed (.runtime (.unboundName "դ" ⟨2, 17⟩)) := ho
  refine ⟨_, m', rfl, (run_report_oneLine hr (by decide)).mpr ?_⟩
  rintro ts - t - - (⟨expected, hf⟩ | hf)
  · cases hf
  · cases hf

/-- A quoted text of two lines is repeated with both of them, where a name was expected and where
it is called. -/
theorem report_of_two_lines :
    (∃ f m', run false 0 "5 որպես «ա\nբ»" {} = (.failed f, m') ∧ ¬ OneLine f.message) ∧
      ∃ f m', run false 0 "«ա\nբ» 5" {} = (.failed f, m') ∧ ¬ OneLine f.message := by
  have hparsed : (run false 0 "5 որպես «ա\nբ»" {}).1 =
      .failed (.parsing (.unexpected ⟨.quote, "ա\nբ", ⟨1, 9⟩⟩ .nameAfterNaming)) := by
    decide +kernel
  have hcalled : (run false 0 "«ա\nբ» 5" {}).1 =
      .failed (.runtime (.unknownFunction "ա\nբ" ⟨1, 1⟩)) := by decide +kernel
  exact ⟨⟨_, _, Prod.ext hparsed rfl, by decide +kernel⟩, _, _, Prod.ext hcalled rfl,
    by decide +kernel⟩

end Holov
