import Holov.Program.Listing
import Holov.Proofs.Listing.Tokens

namespace Holov

-- The statements of a program in the order of the listing, each with the number of bodies around it.
mutual

def Expr.outline (depth : Nat) : Expr → List (Nat × Statement)
  | .function _ body => outlineOf (depth + 1) body
  | .value _ => []
  | .call _ _ _ => []

def Statement.outline (depth : Nat) : Statement → List (Nat × Statement)
  | .definition e name p => (depth, .definition e name p) :: e.outline depth
  | .expression e => (depth, .expression e) :: e.outline depth

def outlineOf (depth : Nat) : List Statement → List (Nat × Statement)
  | [] => []
  | s :: rest => s.outline depth ++ outlineOf depth rest

end

def Expr.headline : Expr → String
  | .value t => "Value(" ++ t.kind.name ++ " " ++ quotedText t.text ++ ")"
  | .function params _ => "Function(" ++ ", ".intercalate params ++ ")"
  | .call callee _ args =>
    "Call " ++ callee ++ "(" ++ ", ".intercalate (args.map fun t => quotedText t.text) ++ ")"

def Statement.headline : Statement → String
  | .definition e name _ => "Definition " ++ name ++ " = " ++ e.headline
  | .expression e => "Expression " ++ e.headline

/-- The lines of statements, each with the number of bodies around it. -/
def listOutline (entries : List (Nat × Statement)) : String :=
  String.join (entries.map fun entry => indent entry.1 ++ entry.2.headline ++ "\n")

theorem listOutline_cons (depth : Nat) (st : Statement) (entries : List (Nat × Statement)) :
    listOutline ((depth, st) :: entries) =
      indent depth ++ st.headline ++ "\n" ++ listOutline entries := by
  rw [listOutline, List.map_cons, String.join_cons]
  rfl

theorem listOutline_append (entries entries' : List (Nat × Statement)) :
    listOutline (entries ++ entries') = listOutline entries ++ listOutline entries' := by
  rw [listOutline, List.map_append, String.join_append]
  rfl

section Outline

-- By induction on the syntax. Only the function literal leads back to statements.
mutual

theorem Expr.map_outline (depth : Nat) (e : Expr) : (e.outline depth).map Prod.snd = e.statements := by
  cases e with
  | value t => rfl
  | function params body => exact map_outlineOf (depth + 1) body
  | call callee p args => rfl

theorem Statement.map_outline (depth : Nat) (s : Statement) :
    (s.outline depth).map Prod.snd = s.statements := by
  cases s with
  | definition e name p => exact congrArg (_ :: ·) (e.map_outline depth)
  | expression e => exact congrArg (_ :: ·) (e.map_outline depth)

theorem map_outlineOf (depth : Nat) (b : List Statement) :
    (outlineOf depth b).map Prod.snd = statementsOf b := by
  cases b with
  | nil => rfl
  | cons s b => rw [outlineOf, List.map_append, s.map_outline, map_outlineOf depth b, statementsOf]

end

mutual

theorem Expr.listing_eq (depth : Nat) (e : Expr) :
    e.listing depth = e.headline ++ "\n" ++ listOutline (e.outline depth) := by
  have hend : ")\n" = ")" ++ "\n" := by decide
  have hnone : listOutline [] = "" := rfl
  cases e with
  | value t =>
    rw [Expr.listing, Expr.headline, Expr.outline, hnone, hend, String.append_empty]
    simp only [String.append_assoc]
  | function params body =>
    rw [Expr.listing, Expr.headline, Expr.outline, hend, listBlock_eq (depth + 1) body]
    simp only [String.append_assoc]
  | call callee p args =>
    rw [Expr.listing, Expr.headline, Expr.outline, hnone, hend, String.append_empty]
    simp only [String.append_assoc]

theorem Statement.listing_eq (depth : Nat) (s : Statement) :
    s.listing depth = listOutline (s.outline depth) := by
  cases s with
  | definition e name p =>
    rw [Statement.listing, Statement.outline, listOutline_cons, e.listing_eq depth, Statement.headline]
    simp only [String.append_assoc]
  | expression e =>
    rw [Statement.listing, Statement.outline, listOutline_cons, e.listing_eq depth, Statement.headline]
    simp only [String.append_assoc]

theorem listBlock_eq (depth : Nat) (b : List Statement) :
    listBlock depth b = listOutline (outlineOf depth b) := by
  cases b with
  | nil => rfl
  | cons s b =>
    rw [listBlock, outlineOf, listOutline_append, s.listing_eq depth, listBlock_eq depth b]

end

end Outline

section Newlines

def newlines (s : String) : Nat :=
  s.toList.count '\n'

theorem newlines_append (s t : String) : newlines (s ++ t) = newlines s + newlines t := by
  rw [newlines, String.toList_append, List.count_append]
  rfl

theorem newlines_eq_zero {s : String} : newlines s = 0 ↔ OneLine s :=
  List.count_eq_zero

theorem oneLine_join {l : List String} (h : ∀ s ∈ l, OneLine s) : OneLine (String.join l) := by
  intro hn
  rw [String.toList_join] at hn
  obtain ⟨s, hs, hmem⟩ := List.mem_flatMap.mp hn
  exact h s hs hmem

theorem oneLine_intercalate {l : List String} (h : ∀ s ∈ l, OneLine s) :
    OneLine (", ".intercalate l) := by
  induction l with
  | nil => decide
  | cons s l ih =>
    obtain ⟨hs, hl⟩ := List.forall_mem_cons.mp h
    cases l with
    | nil => simpa using hs
    | cons t l =>
      rw [String.intercalate_cons_cons]
      exact oneLine_append.mpr ⟨oneLine_append.mpr ⟨hs, by decide⟩, ih hl⟩

theorem oneLine_indent (depth : Nat) : OneLine (indent depth) := by
  apply oneLine_join
  intro s hs
  rw [List.eq_of_mem_replicate hs]
  decide

theorem newlines_listOutline_cons (entry : Nat × Statement) (entries : List (Nat × Statement)) :
    newlines (listOutline (entry :: entries)) =
      newlines entry.2.headline + 1 + newlines (listOutline entries) := by
  have hindent := newlines_eq_zero.mpr (oneLine_indent entry.1)
  have hend : newlines "\n" = 1 := by decide
  rw [listOutline_cons, newlines_append, newlines_append, newlines_append, hindent, hend,
    Nat.zero_add]

theorem length_le_newlines_listOutline (entries : List (Nat × Statement)) :
    entries.length ≤ newlines (listOutline entries) := by
  induction entries with
  | nil => exact Nat.zero_le _
  | cons entry entries ih =>
    rw [newlines_listOutline_cons, List.length_cons]
    omega

/-- There is a line for each entry, and no other exactly if each entry is on one line. -/
theorem newlines_listOutline_iff (entries : List (Nat × Statement)) :
    newlines (listOutline entries) = entries.length ↔
      ∀ entry ∈ entries, OneLine entry.2.headline := by
  induction entries with
  | nil => simp [listOutline, newlines]
  | cons entry entries ih =>
    have hle := length_le_newlines_listOutline entries
    rw [newlines_listOutline_cons, List.length_cons, List.forall_mem_cons, ← ih,
      ← newlines_eq_zero]
    omega

/-- The listing has a line for each statement, at every depth, if and only if each is on one. -/
theorem newlines_listProgram_iff (program : Block) :
    newlines (listProgram program) = (statementsOf program).length ↔
      ∀ st ∈ statementsOf program, OneLine st.headline := by
  rw [listProgram, listBlock_eq, ← map_outlineOf 0 program, List.length_map, List.forall_mem_map]
  exact newlines_listOutline_iff (outlineOf 0 program)

end Newlines

def Statement.expr : Statement → Expr
  | .definition e _ _ => e
  | .expression e => e

/-- The statement is a call, or a definition by a call, of what the token says. -/
def Statement.Calls (st : Statement) (t : Token) : Prop :=
  ∃ args, st.expr = .call t.text t.position args

namespace Grammar

theorem FullValue.mem {ts rest : List Token} {o : Parser.Operand} (h : FullValue ts o rest) :
    o.token ∈ ts := by
  cases h <;> simp

theorem Enumeration.subset {ts vs rest : List Token} (h : Enumeration ts vs rest) : vs ⊆ ts := by
  induction h with
  | done hn => exact List.nil_subset _
  | @more s ts us rest vs o hs ho hm ih =>
    obtain ⟨pre, rfl, -⟩ := ho.replace
    exact List.cons_subset.mpr ⟨.tail s ho.mem, fun t ht => by simp [ih ht]⟩

/-- The parameters of a function literal are those of identifiers. -/
theorem Expression.exists_parameter {ts rest : List Token} {params : List String} {body : Block}
    (h : Expression ts (.function params body) rest) {name : String} (hn : name ∈ params) :
    ∃ t ∈ ts, t.kind = .identifier ∧ t.text = name := by
  cases h with
  | function hf hm hj hp hk hi hb hc =>
    obtain ⟨t, ht, rfl⟩ := List.mem_map.mp hn
    refine ⟨t, ?_, hi t ht, rfl⟩
    obtain ⟨pre, rfl, -⟩ := hf.replace
    rcases List.mem_append.mp ht with ht | ht
    · exact List.mem_append_right _ (hj.subset ht)
    · rw [List.mem_singleton.mp ht]
      exact hf.mem

theorem Expression.exists_callee {ts rest args : List Token} {callee : String} {p : Position}
    (h : Expression ts (.call callee p args) rest) :
    ∃ t ∈ ts, t.text = callee ∧ t.position = p := by
  cases h with
  | @markedCall _ us _ joined first t hf hm hj hc =>
    obtain ⟨pre, rfl, -⟩ := replace_joined hf hj
    exact ⟨t, by simp, rfl, rfl⟩
  | call hf hm hj ha hr => exact ⟨_, hf.mem, rfl, rfl⟩

theorem Sentence.exists_expression {ts rest : List Token} {st : Statement}
    (h : Sentence ts st rest) : ∃ us, Expression ts st.expr us := by
  cases h with
  | definition he ha hi => exact ⟨_, he⟩
  | expression he hn => exact ⟨_, he⟩

end Grammar

/-- Of what is listed of an expression, all but a callee is on one line. -/
theorem Expr.oneLine_headline {e : Expr}
    (hp : ∀ params body, e = .function params body → ∀ name ∈ params, OneLine name) :
    OneLine e.headline ↔ ∀ callee p args, e = .call callee p args → OneLine callee := by
  cases e with
  | value t =>
    have hline : OneLine (Expr.value t).headline := by
      simp only [Expr.headline, oneLine_append, t.kind.oneLine_name, oneLine_quotedText]
      decide
    exact iff_of_true hline nofun
  | function params body =>
    have hline : OneLine (Expr.function params body).headline := by
      simp only [Expr.headline, oneLine_append, oneLine_intercalate (hp params body rfl)]
      decide
    exact iff_of_true hline nofun
  | call callee p args =>
    have hargs : OneLine (", ".intercalate (args.map fun t => quotedText t.text)) := by
      apply oneLine_intercalate
      intro s hs
      obtain ⟨t, -, rfl⟩ := List.mem_map.mp hs
      exact oneLine_quotedText t.text
    simp only [Expr.headline, oneLine_append, hargs]
    constructor
    · rintro ⟨⟨⟨⟨-, hcallee⟩, -⟩, -⟩, -⟩ _ _ _ heq
      cases heq
      exact hcallee
    · intro h
      have hcallee := h callee p args rfl
      simp only [hcallee]
      decide

section Sources

variable {source : String} {ts : List Token} (ht : tokenize source = .ok ts)
include ht

/-- The line of a statement ends where the statement does, unless it calls a quoted text with a
newline in it. -/
theorem oneLine_headline_iff {us vs : List Token} {st : Statement} (hus : us ⊆ ts)
    (hs : Grammar.Sentence us st vs) :
    OneLine st.headline ↔ ∀ t ∈ ts, t.kind = .quote → st.Calls t → OneLine t.text := by
  obtain ⟨ws, he⟩ := hs.exists_expression
  have hidentifier : ∀ name, (∃ t ∈ us, t.kind = .identifier ∧ t.text = name) → OneLine name := by
    rintro name ⟨t, htu, hk, rfl⟩
    exact oneLine_of_mem_tokens ht (hus htu) (by rw [hk]; nofun)
  have hparams : ∀ params body, st.expr = .function params body →
      ∀ name ∈ params, OneLine name := by
    intro params body heq name hn
    rw [heq] at he
    exact hidentifier name (he.exists_parameter hn)
  have hexpr : OneLine st.headline ↔ OneLine st.expr.headline := by
    cases st with
    | definition e name p =>
      have hname := hidentifier name hs.exists_name
      simp only [Statement.headline, Statement.expr, oneLine_append, hname]
      exact ⟨fun h => h.2, fun h => ⟨by decide, h⟩⟩
    | expression e =>
      simp only [Statement.headline, Statement.expr, oneLine_append]
      exact ⟨fun h => h.2, fun h => ⟨by decide, h⟩⟩
  rw [hexpr, Expr.oneLine_headline hparams]
  constructor
  · rintro h t - - ⟨args, hcall⟩
    exact h _ _ _ hcall
  · intro h callee p args hcall
    rw [hcall] at he
    obtain ⟨t, htu, rfl, rfl⟩ := he.exists_callee
    by_cases hk : t.kind = .quote
    · exact h t (hus htu) hk ⟨args, hcall⟩
    · exact oneLine_of_mem_tokens ht (hus htu) hk

end Sources

/-- The listing of a program shows the statements of every depth in their order, each behind the
indentation of its depth and with the word for its sort in front. A statement has its line for
itself, unless it calls a quoted text with a newline in it, so the listing has as many lines as
there are statements exactly if no such text is called. -/
theorem listProgram_lines {source : String} {ts : List Token} {program : Block}
    (ht : tokenize source = .ok ts) (hp : parse ts = .ok program) :
    (listProgram program = String.join ((outlineOf 0 program).map fun entry =>
        indent entry.1 ++ entry.2.headline ++ "\n") ∧
      (outlineOf 0 program).map Prod.snd = statementsOf program) ∧
    (∀ st ∈ statementsOf program, (∃ rest, st.headline = "Definition " ++ rest) ∨
      ∃ rest, st.headline = "Expression " ++ rest) ∧
    (∀ st ∈ statementsOf program,
      OneLine st.headline ↔ ∀ t ∈ ts, t.kind = .quote → st.Calls t → OneLine t.text) ∧
    ((listProgram program).toList.count '\n' = (statementsOf program).length ↔
      ∀ t ∈ ts, t.kind = .quote → (∃ st ∈ statementsOf program, st.Calls t) → OneLine t.text) := by
  have hlines : ∀ st ∈ statementsOf program,
      (OneLine st.headline ↔ ∀ t ∈ ts, t.kind = .quote → st.Calls t → OneLine t.text) := by
    intro st hst
    obtain ⟨us, vs, hus, hs⟩ := Grammar.exists_sentence hp hst
    exact oneLine_headline_iff ht hus hs
  refine ⟨⟨listBlock_eq 0 program, map_outlineOf 0 program⟩, ?_, hlines, ?_⟩
  · rintro (⟨e, name, p⟩ | e) -
    · exact .inl ⟨name ++ " = " ++ e.headline, by simp [Statement.headline, String.append_assoc]⟩
    · exact .inr ⟨e.headline, rfl⟩
  · refine (newlines_listProgram_iff program).trans ?_
    constructor
    · rintro h t htt hk ⟨st, hst, hcall⟩
      exact (hlines st hst).mp (h st hst) t htt hk hcall
    · intro h st hst
      exact (hlines st hst).mpr fun t htt hk hcall => h t htt hk ⟨st, hst, hcall⟩

/-- A quoted text of two lines as an argument, in the body of a function, is listed on one. -/
theorem listProgram_lines_argument :
    ∃ ts program, tokenize "ա չափոցով գործառույթ «տպիր «բ\nգ»» որպես ֆ" = .ok ts ∧
      parse ts = .ok program ∧ (listProgram program).toList.count '\n' =
        (statementsOf program).length := by
  have ht : tokenize "ա չափոցով գործառույթ «տպիր «բ\nգ»» որպես ֆ" = .ok
      [⟨.identifier, "ա", ⟨1, 1⟩⟩, ⟨.parameter, "չափոցով", ⟨1, 3⟩⟩,
        ⟨.function, "գործառույթ", ⟨1, 11⟩⟩, ⟨.identifier, "տպիր", ⟨1, 23⟩⟩,
        ⟨.quote, "բ\nգ", ⟨1, 28⟩⟩, ⟨.endFunction, "", ⟨2, 3⟩⟩, ⟨.naming, "որպես", ⟨2, 5⟩⟩,
        ⟨.identifier, "ֆ", ⟨2, 11⟩⟩] := by
    with_unfolding_all rfl
  have hp : parse [⟨.identifier, "ա", ⟨1, 1⟩⟩, ⟨.parameter, "չափոցով", ⟨1, 3⟩⟩,
        ⟨.function, "գործառույթ", ⟨1, 11⟩⟩, ⟨.identifier, "տպիր", ⟨1, 23⟩⟩,
        ⟨.quote, "բ\nգ", ⟨1, 28⟩⟩, ⟨.endFunction, "", ⟨2, 3⟩⟩, ⟨.naming, "որպես", ⟨2, 5⟩⟩,
        ⟨.identifier, "ֆ", ⟨2, 11⟩⟩] =
      .ok [.definition (.function ["ա"] [.expression (.call "տպիր" ⟨1, 23⟩
        [⟨.quote, "բ\nգ", ⟨1, 28⟩⟩])]) "ֆ" ⟨2, 11⟩] := by
    with_unfolding_all rfl
  refine ⟨_, _, ht, hp, (listProgram_lines ht hp).2.2.2.mpr ?_⟩
  rintro t - - ⟨st, hst, args, hcall⟩
  simp only [statementsOf, Statement.statements, Expr.statements, List.append_nil,
    List.mem_cons, List.not_mem_nil, or_false] at hst
  rcases hst with rfl | rfl
  · cases hcall
  · have hname : "տպիր" = t.text := (Expr.call.inj hcall).1
    rw [← hname]
    decide

/-- A quoted text of two lines that is called: one statement is listed on two lines. -/
theorem listProgram_two_lines :
    ∃ ts program, tokenize "«ա\nբ» 5" = .ok ts ∧ parse ts = .ok program ∧
      (statementsOf program).length = 1 ∧ (listProgram program).toList.count '\n' = 2 := by
  have ht : tokenize "«ա\nբ» 5" =
      .ok [⟨.quote, "ա\nբ", ⟨1, 1⟩⟩, ⟨.number, "5", ⟨2, 4⟩⟩] := by
    with_unfolding_all rfl
  have hp : parse [⟨.quote, "ա\nբ", ⟨1, 1⟩⟩, ⟨.number, "5", ⟨2, 4⟩⟩] =
      .ok [.expression (.call "ա\nբ" ⟨1, 1⟩ [⟨.number, "5", ⟨2, 4⟩⟩])] := by
    with_unfolding_all rfl
  exact ⟨_, _, ht, hp, rfl, by decide +kernel⟩

end Holov
