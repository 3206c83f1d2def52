import Holov.Proofs.CallForms
import Holov.Proofs.Lexing.Image
import Holov.Proofs.Provenance.Lexing
import Mathlib.Data.List.Forall2

namespace Holov

inductive Literal where
  | boolean (b : Bool)
  | number (digits : List Char) (nonempty : digits ≠ []) (isDigit : ∀ c ∈ digits, c.isDigit)
  | quote (text : List Char) (unclosed : quoteClose ∉ text)

namespace Literal

def spelling : Literal → String
  | boolean true => Word.truth
  | boolean false => Word.falsity
  | number digits _ _ => String.ofList digits
  | quote text _ => String.ofList (quoteOpen :: text ++ [quoteClose])

/-- How the literal is printed: a word as it is, a number as it is displayed once it has been read,
and a quoted text without its guillemets. -/
def shown : Literal → String
  | boolean true => Word.truth
  | boolean false => Word.falsity
  | number digits hne hd =>
    ((Number.read? (String.ofList digits)).get (Number.isSome_read? hne hd)).text
  | quote text _ => String.ofList text

def value : Literal → Value
  | boolean b => .boolean b
  | number digits hne hd =>
    .number ((Number.read? (String.ofList digits)).get (Number.isSome_read? hne hd))
  | quote text _ => .text (String.ofList text)

def content : Literal → Kind × String
  | boolean true => (.truth, Word.truth)
  | boolean false => (.falsity, Word.falsity)
  | number digits _ _ => (.number, String.ofList digits)
  | quote text _ => (.quote, String.ofList text)

def lexeme : Literal → Lexeme
  | boolean true => .word Word.truth.toList
  | boolean false => .word Word.falsity.toList
  | number digits _ _ => .number digits
  | quote text _ => .quote text

theorem display_value (l : Literal) : l.value.display = l.shown := by
  rcases l with (_ | _) | _ | _ <;> rfl

theorem isValue_of_content (l : Literal) {t : Token} (h : t.content = l.content) :
    t.kind.isValue := by
  have hkind : t.kind = l.content.1 := congrArg Prod.fst h
  rw [hkind]
  rcases l with (_ | _) | _ | _ <;> rfl

theorem admits_content (l : Literal) : l.content.1.Admits l.content.2 := by
  rcases l with (_ | _) | ⟨digits, hne, hd⟩ | ⟨text, hc⟩
  · decide
  · decide
  · change (String.ofList digits).toList ≠ [] ∧ ∀ c ∈ (String.ofList digits).toList, c.isDigit
    rw [String.toList_ofList]
    exact ⟨hne, hd⟩
  · change quoteClose ∉ (String.ofList text).toList
    rwa [String.toList_ofList]

theorem evaluate_eq (l : Literal) {t : Token} (h : t.content = l.content) (scope : Scope) :
    scope.evaluate t = .ok l.value := by
  have hkind : t.kind = l.content.1 := congrArg Prod.fst h
  have htext : t.text = l.content.2 := congrArg Prod.snd h
  rcases l with (_ | _) | ⟨digits, hne, hd⟩ | ⟨text, hc⟩
  · simp [Scope.evaluate, Value.ofLiteral?, hkind, content, value]
  · simp [Scope.evaluate, Value.ofLiteral?, hkind, content, value]
  · obtain ⟨n, hn⟩ := Option.isSome_iff_exists.mp (Number.isSome_read? hne hd)
    simp [Scope.evaluate, Value.ofLiteral?, hkind, htext, content, value, hn]
  · simp [Scope.evaluate, Value.ofLiteral?, hkind, htext, content, value]

end Literal

/-- A name that can be defined and looked up: letters that are not a keyword, without a case marker
at the end. -/
structure Name where
  text : String
  nonempty : text.toList ≠ []
  isLetter : ∀ c ∈ text.toList, isLetter c
  ordinary : ∀ entry ∈ Lexeme.keywords, entry.1 ≠ text
  unmarked : endsInMarker text = false

/-- A literal to be printed, where it stands or under a name. -/
structure Item where
  literal : Literal
  name? : Option Name := none

structure Binding where
  name : Name
  literal : Literal

def Name.content (n : Name) : Kind × String :=
  (.identifier, n.text)

theorem Name.admits_content (n : Name) : n.content.1.Admits n.content.2 :=
  ⟨n.nonempty, n.isLetter, n.ordinary⟩

namespace Item

def spelling (i : Item) : String :=
  match i.name? with
  | some n => n.text
  | none => i.literal.spelling

def content (i : Item) : Kind × String :=
  match i.name? with
  | some n => n.content
  | none => i.literal.content

end Item

def joinedContents (items : List Item) : List (Kind × String) :=
  items.flatMap fun i => [(.separator, Word.separator), i.content]

def Binding.contents (d : Binding) : List (Kind × String) :=
  [d.literal.content, (.naming, Word.naming), d.name.content]

def bindingsOf (items : List Item) : List Binding :=
  items.filterMap fun i => i.name?.map fun n => ⟨n, i.literal⟩

def writeDefinitions (ds : List Binding) : String :=
  String.join (ds.map fun d =>
    d.literal.spelling ++ " " ++ Word.naming ++ " " ++ d.name.text ++ "\n")

def writeItems (items : List Item) : String :=
  String.join (items.map fun i => " " ++ Word.separator ++ " " ++ i.spelling)

/-- A call that prints the items, with the name of the function in front. -/
def printCall (first : Item) (rest : List Item) : String :=
  Builtin.print.name ++ " " ++ first.spelling ++ writeItems rest

/-- A call that prints the items with the first of them as its object, marked by the letter
`marker`. -/
def markedPrintCall (marker : Char) (first : Item) (rest : List Item) : String :=
  first.spelling ++ String.singleton marker ++ writeItems rest ++ " " ++ Builtin.print.name

def printedLine (items : List Item) : String :=
  ", ".intercalate (items.map fun i => i.literal.shown) ++ "\n"

/-- The source runs to its end and writes the text and nothing else, on any sink without a limit. -/
def Prints (source text : String) : Prop :=
  ∀ depth m, m.sink.limit = none → ∃ m', run false depth source m = (.completed, m') ∧
    m'.sink.written.toList = m.sink.written.toList ++ text.toUTF8.data.toList

section Lexing
open Lexeme

def WrittenAs (text : String) (ws : List (Kind × String)) : Prop :=
  ∃ ls, text = String.ofList (spell ls) ∧ Writes ls ws

variable {s t : String} {ws vs : List (Kind × String)}

theorem WrittenAs.exists_tokens (h : WrittenAs s ws) :
    ∃ ts, tokenize s = .ok ts ∧ ts.map Token.content = ws := by
  obtain ⟨ls, rfl, hw⟩ := h
  exact ⟨_, tokenize_spell hw.fits, hw.contents {}⟩

theorem ofList_spell_append (ls ls' : List Lexeme) :
    String.ofList (spell (ls ++ ls')) = String.ofList (spell ls) ++ String.ofList (spell ls') := by
  rw [spell, List.flatMap_append, String.ofList_append]
  rfl

/-- Texts with a blank between them have the tokens of both. -/
theorem WrittenAs.append (h : WrittenAs s ws) (gap : String) (hne : gap.toList ≠ [])
    (hb : ∀ c ∈ gap.toList, isBlank c) (h' : WrittenAs t vs) :
    WrittenAs (s ++ gap ++ t) (ws ++ vs) := by
  obtain ⟨ls, rfl, hw⟩ := h
  obtain ⟨ls', rfl, hw'⟩ := h'
  refine ⟨ls ++ .blank gap.toList :: ls', ?_, hw.append_blank hne hb hw'⟩
  rw [ofList_spell_append, spell_cons, spelling, String.ofList_append, String.ofList_toList,
    String.append_assoc]

theorem WrittenAs.append_space (h : WrittenAs s ws) (h' : WrittenAs t vs) :
    WrittenAs (s ++ " " ++ t) (ws ++ vs) :=
  h.append " " (by decide) (by decide) h'

section Markers

variable {c : Char} (hc : isCaseMarker c)
include hc

/-- A case marker that stands alone is a case ending. -/
theorem marker_writes : Writes [word [c]] [(.caseEnding, "")] := by
  simp only [isCaseMarker, Bool.or_eq_true, decide_eq_true_eq] at hc
  rcases hc with rfl | rfl
  · exact ⟨⟨⟨by decide, by decide, by decide⟩, trivial⟩, by decide, fun p => rfl⟩
  · exact ⟨⟨⟨by decide, by decide, by decide⟩, trivial⟩, by decide, fun p => rfl⟩

/-- A case marker can be glued to any lexeme that does not go on with it. -/
theorem writtenAs_glued {l : Lexeme} {w : Kind × String} (h : Writes [l] [w])
    (hf : l.Fits (false = true) [c]) :
    WrittenAs (String.ofList l.spelling ++ String.singleton c) [w, (.caseEnding, "")] := by
  refine ⟨[l] ++ [word [c]], ?_, h.glue ⟨hf, trivial⟩ (marker_writes hc)⟩
  rw [ofList_spell_append, String.singleton_eq_ofList]
  simp [spell, spelling]

theorem writtenAs_markedWord {kind : Kind} {text : String} (hk : Names text kind)
    (hne : text.toList ≠ []) (hl : ∀ d ∈ text.toList, isLetter d) (hf : text ≠ Word.function) :
    WrittenAs (text ++ String.singleton c) [(kind, text), (.caseEnding, "")] := by
  refine ⟨_, ?_, markedWord_writes hk hne hl hc hf⟩
  rw [spell, List.flatMap_singleton, spelling, String.ofList_append, String.ofList_toList,
    String.singleton_eq_ofList]

end Markers

theorem Literal.spelling_eq (l : Literal) : l.spelling = String.ofList l.lexeme.spelling := by
  rcases l with (_ | _) | _ | _ <;> simp [Literal.spelling, lexeme, Lexeme.spelling]

theorem Literal.writes (l : Literal) : Writes [l.lexeme] [l.content] := by
  have hlexemes : l.content.1.lexemes l.content.2 = [l.lexeme] := by
    rcases l with (_ | _) | _ | _ <;> simp [content, lexeme, Kind.lexemes]
  rw [← hlexemes]
  refine lexemes_writes l.admits_content fun hk => ?_
  rcases l with (_ | _) | _ | _ <;> cases hk

theorem Literal.writtenAs (l : Literal) : WrittenAs l.spelling [l.content] := by
  refine ⟨[l.lexeme], ?_, l.writes⟩
  rw [l.spelling_eq, spell, List.flatMap_singleton]

theorem Literal.marked_writtenAs (l : Literal) {c : Char} (hc : isCaseMarker c) :
    WrittenAs (l.spelling ++ String.singleton c) [l.content, (.caseEnding, "")] := by
  -- A marker is a letter: it goes on a word, but neither a run of digits nor a quoted text.
  rcases l with (_ | _) | ⟨digits, hne, hd⟩ | ⟨text, hq⟩
  · exact writtenAs_markedWord hc (.inl (by decide)) (by decide) (by decide) (by decide)
  · exact writtenAs_markedWord hc (.inl (by decide)) (by decide) (by decide) (by decide)
  · rw [Literal.spelling_eq]
    refine writtenAs_glued hc (Literal.writes _) ⟨hne, hd, ?_⟩
    intro d hdigit
    cases hdigit
    intro hdigit
    have hletter := isLetter_of_isCaseMarker hc
    rw [isLetter_eq_false_of_isDigit hdigit] at hletter
    cases hletter
  · rw [Literal.spelling_eq]
    exact writtenAs_glued hc (Literal.writes _) ⟨by simp, hq⟩

theorem Name.writtenAs (n : Name) : WrittenAs n.text [n.content] := by
  refine ⟨_, ?_, lexemes_writes n.admits_content fun _ => n.unmarked⟩
  simp [Kind.lexemes, spell, Lexeme.spelling]

theorem Name.marked_writtenAs (n : Name) {c : Char} (hc : isCaseMarker c) :
    WrittenAs (n.text ++ String.singleton c) [n.content, (.caseEnding, "")] :=
  writtenAs_markedWord hc (.inr ⟨rfl, n.ordinary⟩) n.nonempty n.isLetter
    (ne_function_of_admits n.admits_content)

theorem Item.writtenAs (i : Item) : WrittenAs i.spelling [i.content] := by
  obtain ⟨l, _ | n⟩ := i
  · exact l.writtenAs
  · exact n.writtenAs

theorem Item.marked_writtenAs (i : Item) {c : Char} (hc : isCaseMarker c) :
    WrittenAs (i.spelling ++ String.singleton c) [i.content, (.caseEnding, "")] := by
  obtain ⟨l, _ | n⟩ := i
  · exact l.marked_writtenAs hc
  · exact n.marked_writtenAs hc

theorem writtenAs_keyword {kind : Kind} {text : String} (h : (text, kind) ∈ keywords)
    (hf : kind ≠ .function) : WrittenAs text [(kind, text)] := by
  refine ⟨_, ?_, keyword_writes h hf⟩
  simp [spell, spelling]

theorem writtenAs_print : WrittenAs Builtin.print.name [(.identifier, Builtin.print.name)] :=
  Name.writtenAs ⟨Builtin.print.name, by decide, by decide, by decide, by decide⟩

theorem WrittenAs.append_items (items : List Item) (h : WrittenAs s ws) :
    WrittenAs (s ++ writeItems items) (ws ++ joinedContents items) := by
  induction items generalizing s ws with
  | nil => simpa [writeItems, joinedContents] using h
  | cons i items ih =>
    have hseparator : WrittenAs Word.separator [(.separator, Word.separator)] :=
      writtenAs_keyword (by decide) (by decide)
    have hmore := ih ((h.append_space hseparator).append_space i.writtenAs)
    simpa [writeItems, joinedContents, String.append_assoc] using hmore

theorem WrittenAs.behind_definitions (ds : List Binding) (h : WrittenAs s ws) :
    WrittenAs (writeDefinitions ds ++ s) (ds.flatMap Binding.contents ++ ws) := by
  induction ds with
  | nil => simpa [writeDefinitions] using h
  | cons d ds ih =>
    have hnaming : WrittenAs Word.naming [(.naming, Word.naming)] :=
      writtenAs_keyword (by decide) (by decide)
    have hd := (d.literal.writtenAs.append_space hnaming).append_space d.name.writtenAs
    have hmore := hd.append "\n" (by decide) (by decide) ih
    simpa [writeDefinitions, Binding.contents, String.append_assoc] using hmore

end Lexing

section Parsing
open Grammar

theorem Item.isValue_of_content (i : Item) {t : Token} (h : t.content = i.content) :
    t.kind.isValue := by
  obtain ⟨l, _ | n⟩ := i
  · exact l.isValue_of_content h
  · have hkind : t.kind = .identifier := congrArg Prod.fst h
    rw [hkind]
    rfl

/-- Tokens with the contents of joined items are joined arguments. -/
theorem exists_joined {items : List Item} {ts : List Token}
    (h : ts.map Token.content = joinedContents items) :
    ∃ as, writeJoined as = ts ∧ (valuesOf as).map Token.content = items.map Item.content := by
  induction items generalizing ts with
  | nil =>
    cases List.map_eq_nil_iff.mp h
    exact ⟨[], rfl, rfl⟩
  | cons i items ih =>
    obtain ⟨separator, us, rfl, hs, hus⟩ := List.map_eq_cons_iff.mp h
    obtain ⟨t, vs, rfl, ht, hvs⟩ := List.map_eq_cons_iff.mp hus
    obtain ⟨as, rfl, has⟩ := ih hvs
    let a : JoinedArgument :=
      { token := t
        separator
        isValue := i.isValue_of_content ht
        isEnding := by simp
        isSeparator := congrArg Prod.fst hs }
    refine ⟨a :: as, rfl, ?_⟩
    rw [List.map_cons, ← has, ← ht]
    rfl

def IsPrintOf (ts : List Token) (items : List Item) : Prop :=
  ∃ p args, Program ts [.expression (.call Builtin.print.name p args)] ∧
    args.map Token.content = items.map Item.content

theorem isPrintOf_of_expression {ts args : List Token} {callee : Token} {items : List Item}
    (h : Expression ts (.call callee.text callee.position args) [])
    (hc : callee.content = (.identifier, Builtin.print.name))
    (ha : args.map Token.content = items.map Item.content) : IsPrintOf ts items := by
  have hname : callee.text = Builtin.print.name := congrArg Prod.snd hc
  rw [hname] at h
  exact ⟨callee.position, args, .cons (.expression h nofun) .nil, ha⟩

theorem isPrintOf_call {first : Item} {rest : List Item} {ts : List Token}
    (h : ts.map Token.content =
      [(.identifier, Builtin.print.name)] ++ [first.content] ++ joinedContents rest) :
    IsPrintOf ts (first :: rest) := by
  obtain ⟨callee, us, rfl, hc, hus⟩ := List.map_eq_cons_iff.mp h
  obtain ⟨next, vs, rfl, hnext, hvs⟩ := List.map_eq_cons_iff.mp hus
  obtain ⟨as, rfl, has⟩ := exists_joined hvs
  let c : UnmarkedCall :=
    { callee
      joined := []
      next := ⟨next, none, first.isValue_of_content hnext, by simp⟩
      further := as
      isIdentifier := congrArg Prod.fst hc }
  have hd : Expression (c.tokens ++ []) (.call callee.text callee.position c.args) [] :=
    c.derives nofun
  have hargs : c.args.map Token.content = (first :: rest).map Item.content := by
    rw [List.map_cons, ← has, ← hnext]
    rfl
  rw [List.append_nil] at hd
  exact isPrintOf_of_expression hd hc hargs

theorem isPrintOf_markedCall {first : Item} {rest : List Item} {ts : List Token}
    (h : ts.map Token.content = [first.content, (.caseEnding, "")] ++ joinedContents rest ++
      [(.identifier, Builtin.print.name)]) :
    IsPrintOf ts (rest ++ [first]) := by
  obtain ⟨us, vs, rfl, hus, hvs⟩ := List.map_eq_append_iff.mp h
  obtain ⟨callee, cs, rfl, hc, hcs⟩ := List.map_eq_cons_iff.mp hvs
  cases List.map_eq_nil_iff.mp hcs
  obtain ⟨object, us, rfl, ho, hus⟩ := List.map_eq_cons_iff.mp hus
  obtain ⟨ending, us, rfl, he, hus⟩ := List.map_eq_cons_iff.mp hus
  obtain ⟨as, rfl, has⟩ := exists_joined hus
  let c : MarkedCall :=
    { object
      ending
      joined := as
      callee
      isValue := first.isValue_of_content ho
      isEnding := congrArg Prod.fst he
      isIdentifier := congrArg Prod.fst hc }
  have hargs : c.args.map Token.content = (rest ++ [first]).map Item.content := by
    rw [MarkedCall.args, List.map_append, List.map_append, has, List.map_singleton,
      List.map_singleton, ho]
  have hd := c.derives []
  rw [List.append_nil] at hd
  exact isPrintOf_of_expression hd hc hargs

def Binding.IsDefinedBy (d : Binding) (s : Statement) : Prop :=
  ∃ t p, s = .definition (.value t) d.name.text p ∧ t.content = d.literal.content

theorem program_definition {t as name : Token} (ht : t.kind.isValue) (ha : as.kind = .naming)
    (hi : name.kind = .identifier) :
    Program [t, as, name] [.definition (.value t) name.text name.position] := by
  have hnext : ∀ p : Kind → Prop, ¬ p .naming → NotNext p [as, name] := by
    intro p hp u hu
    cases hu
    rwa [ha]
  -- Behind the value stands the naming word, with which no expression goes on.
  have he : Expression [t, as, name] (.value t) [as, name] :=
    .value (.unmarked ht (hnext _ (by decide))) rfl (.done (hnext _ (by decide)))
      (hnext _ (by decide))
  exact .cons (.definition he ha hi) .nil

/-- Tokens with the contents of definitions are read as definitions in front of any program. -/
theorem exists_definitions {ds : List Binding} {ts us : List Token} {b : Block}
    (h : ts.map Token.content = ds.flatMap Binding.contents) (hb : Program us b) :
    ∃ block, Program (ts ++ us) (block ++ b) ∧ List.Forall₂ Binding.IsDefinedBy ds block := by
  induction ds generalizing ts with
  | nil =>
    cases List.map_eq_nil_iff.mp h
    exact ⟨[], hb, .nil⟩
  | cons d ds ih =>
    rw [List.flatMap_cons, Binding.contents] at h
    obtain ⟨t, vs, rfl, ht, hvs⟩ := List.map_eq_cons_iff.mp h
    obtain ⟨as, vs, rfl, ha, hvs⟩ := List.map_eq_cons_iff.mp hvs
    obtain ⟨name, vs, rfl, hn, hvs⟩ := List.map_eq_cons_iff.mp hvs
    obtain ⟨block, hp, hall⟩ := ih hvs
    have hfirst := program_definition (d.literal.isValue_of_content ht) (congrArg Prod.fst ha)
      (congrArg Prod.fst hn)
    have hname : name.text = d.name.text := congrArg Prod.snd hn
    rw [hname] at hfirst
    exact ⟨_ :: block, hfirst.append hp (by simp), .cons ⟨t, name.position, rfl, ht⟩ hall⟩

end Parsing

section Execution

def Binding.entry (d : Binding) : String × Value :=
  (d.name.text, d.literal.value)

/-- Definitions bind their names and write nothing. -/
theorem executeBlock_definitions {ds : List Binding} {block : Block}
    (h : List.Forall₂ Binding.IsDefinedBy ds block) (enter : BodyRunner) (scope : Scope)
    (m : Machine) :
    ∃ m', executeBlock enter block scope m =
      ⟨.completed, scope.defineVariables (ds.map Binding.entry), m'⟩ ∧ m'.sink = m.sink := by
  induction h generalizing scope m with
  | nil => exact ⟨m, rfl, rfl⟩
  | @cons d s ds block hd _ ih =>
    obtain ⟨t, p, rfl, ht⟩ := hd
    have hs : executeStatement enter scope m (.definition (.value t) d.name.text p) =
        ⟨.completed, scope.defineVariable d.name.text d.literal.value,
          m.note (.variableDefined d.name.text d.literal.value scope.depth)⟩ := by
      rw [executeStatement, d.literal.evaluate_eq ht]
    rw [executeBlock_cons, hs]
    exact ih _ _

theorem evaluateAll_of_contents {scope : Scope} {items : List Item} {args : List Token}
    (hs : ∀ i ∈ items, ∀ t, t.content = i.content → scope.evaluate t = .ok i.literal.value)
    (h : args.map Token.content = items.map Item.content) :
    args.mapM scope.evaluate = .ok (items.map fun i => i.literal.value) := by
  induction items generalizing args with
  | nil =>
    cases List.map_eq_nil_iff.mp h
    rfl
  | cons i items ih =>
    obtain ⟨hi, hitems⟩ := List.forall_mem_cons.mp hs
    obtain ⟨t, args, rfl, ht, hargs⟩ := List.map_eq_cons_iff.mp h
    rw [Scope.evaluateAll_cons, hi t ht, ih hitems hargs]
    rfl

theorem output_print (items : List Item) :
    Builtin.print.output (items.map fun i => i.literal.value) = printedLine items := by
  have hdisplay : (Value.display ∘ fun i : Item => i.literal.value) =
      fun i => i.literal.shown := funext fun i => i.literal.display_value
  rw [Builtin.output, List.map_map, hdisplay, printedLine]

theorem Sink.writeText_of_unlimited {s : Sink} (h : s.limit = none) (text : String) :
    (s.writeText text).1 = true ∧
      (s.writeText text).2.written.toList = s.written.toList ++ text.toUTF8.data.toList := by
  have hroom : ∀ n, s.room n = n := by
    intro n
    rw [room, h]
  rw [writeText, written_write, hroom, List.take_length, write, hroom]
  exact ⟨beq_self_eq_true _, rfl⟩

/-- A call of the printing function writes the line of the items that its arguments stand for. -/
theorem executeBlock_print {scope : Scope} {items : List Item} {args : List Token}
    (hr : scope.routine? Builtin.print.name = none)
    (hs : ∀ i ∈ items, ∀ t, t.content = i.content → scope.evaluate t = .ok i.literal.value)
    (h : args.map Token.content = items.map Item.content) (enter : BodyRunner) (p : Position)
    {m : Machine} (hm : m.sink.limit = none) :
    ∃ m', executeBlock enter [.expression (.call Builtin.print.name p args)] scope m =
      ⟨.completed, scope, m'⟩ ∧
      m'.sink.written.toList =
        m.sink.written.toList ++ (printedLine items).toUTF8.data.toList := by
  have hcallee : scope.callee? Builtin.print.name = some (.builtin .print) := by
    rw [Scope.callee?, hr]
    rfl
  obtain ⟨hok, hwritten⟩ := Sink.writeText_of_unlimited hm (printedLine items)
  rw [executeBlock_singleton, executeStatement_call,
    callWith_builtin hcallee (evaluateAll_of_contents hs h), Machine.callBuiltin_eq, output_print,
    hok]
  exact ⟨_, rfl, hwritten⟩

section Bound

variable {items : List Item} (hn : ((bindingsOf items).map fun d => d.name.text).Nodup)
  {ds : List Binding} (hd : ds.Perm (bindingsOf items))
include hn hd

/-- Behind the definitions, an item has the value of its literal whichever way it is written. -/
theorem evaluate_definitions {i : Item} (hi : i ∈ items) {t : Token} (ht : t.content = i.content) :
    (({} : Scope).defineVariables (ds.map Binding.entry)).evaluate t = .ok i.literal.value := by
  obtain ⟨l, _ | n⟩ := i
  · exact l.evaluate_eq ht _
  · have hbinding : ⟨n, l⟩ ∈ ds := hd.mem_iff.mpr (List.mem_filterMap.mpr ⟨_, hi, rfl⟩)
    have hentry : (n.text, l.value) ∈ ds.map Binding.entry := List.mem_map_of_mem hbinding
    have hnames : ((ds.map Binding.entry).map Prod.fst).Nodup := by
      rw [List.map_map]
      exact (hd.map _).nodup_iff.mpr hn
    obtain ⟨before, after, he, hlast⟩ := Scope.exists_append_of_nodup hnames hentry
    have hkind : t.kind = .identifier := congrArg Prod.fst ht
    have htext : t.text = n.text := congrArg Prod.snd ht
    have hv := Scope.lookup_defineVariables {} before n.text l.value hlast
    rw [he, Scope.evaluate, if_pos hkind, htext, Scope.value?, Scope.frames,
      List.findSome?_cons, hv]

/-- Definitions with a call behind them that prints some of the items print their line. -/
theorem prints_behind_definitions {printed : List Item} (hp : ∀ i ∈ printed, i ∈ items)
    {text : String} {ws : List (Kind × String)} (hw : WrittenAs text ws)
    (hcall : ∀ ts, ts.map Token.content = ws → IsPrintOf ts printed) :
    Prints (writeDefinitions ds ++ text) (printedLine printed) := by
  intro depth m hm
  obtain ⟨ts, htokens, hts⟩ := (hw.behind_definitions ds).exists_tokens
  obtain ⟨us, vs, rfl, hus, hvs⟩ := List.map_eq_append_iff.mp hts
  obtain ⟨p, args, hprint, hargs⟩ := hcall vs hvs
  obtain ⟨block, hprogram, hall⟩ := exists_definitions hus hprint
  have hparse := Grammar.parse_eq_ok_iff.mpr hprogram
  obtain ⟨m₁, hdefined, hsink⟩ := executeBlock_definitions hall (runBody depth) {}
    (m.prepared (us ++ vs) (block ++ [.expression (.call Builtin.print.name p args)]))
  have hroutine : (({} : Scope).defineVariables (ds.map Binding.entry)).routine?
      Builtin.print.name = none :=
    Scope.routine?_defineVariables _ _ _
  have hlimit : m₁.sink.limit = none := by
    rw [hsink]
    exact hm
  obtain ⟨m₂, hprinted, hwritten⟩ := executeBlock_print hroutine
    (fun i hi t ht => evaluate_definitions hn hd (hp i hi) ht) hargs (runBody depth) p hlimit
  refine ⟨m₂, ?_, ?_⟩
  · rw [run_of_parse_ok htokens hparse, execute, executeBlock_append, hdefined,
      Executed.andThen_completed, hprinted]
    rfl
  · rw [hwritten, hsink]
    rfl

end Bound

end Execution

/-- Literals that are printed come out as they are shown, with commas between them, whether they
stand in the call themselves or under distinct names that are defined by them in front of it, in
any order. With a case marker glued to the first of them it is the object of the call, and is
printed last. -/
theorem print_literals (first : Item) (rest : List Item)
    (hn : ((bindingsOf (first :: rest)).map fun d => d.name.text).Nodup)
    (ds : List Binding) (hd : ds.Perm (bindingsOf (first :: rest))) :
    Prints (writeDefinitions ds ++ printCall first rest) (printedLine (first :: rest)) ∧
    ∀ marker, isCaseMarker marker →
      Prints (writeDefinitions ds ++ markedPrintCall marker first rest)
        (printedLine (rest ++ [first])) := by
  constructor
  · have hw := (writtenAs_print.append_space first.writtenAs).append_items rest
    exact prints_behind_definitions hn hd (fun i hi => hi) hw fun ts => isPrintOf_call
  · intro marker hmarker
    have hw := ((first.marked_writtenAs hmarker).append_items rest).append_space writtenAs_print
    have hmem : ∀ i ∈ rest ++ [first], i ∈ first :: rest := by simp [or_comm]
    exact prints_behind_definitions hn hd hmem hw fun ts => isPrintOf_markedCall

/-- A quoted text with delimiters in it, a number under a name and a truth word. -/
theorem print_literals_three :
    Prints "007 որպես բ\nտպիր «ա\n(«\t» և բ և ճշմարիտ" "ա\n(«\t, 7, ճշմարիտ\n" ∧
    Prints "007 որպես բ\n«ա\n(«\t»ն և բ և ճշմարիտ տպիր" "7, ճշմարիտ, ա\n(«\t\n" := by
  let quote : Literal := .quote ['ա', '\n', '(', '«', '\t'] (by decide)
  let seven : Literal := .number ['0', '0', '7'] (by decide) (by decide)
  let name : Name := ⟨"բ", by decide, by decide, by decide, by decide⟩
  have hseven : seven.shown = "7" := by with_unfolding_all rfl
  obtain ⟨hplain, hmarked⟩ := print_literals ⟨quote, none⟩
    [⟨seven, some name⟩, ⟨.boolean true, none⟩] (by decide) [⟨name, seven⟩] (.refl _)
  constructor
  · convert hplain using 1
    · with_unfolding_all rfl
    · simp only [printedLine, List.map_cons, List.map_nil, hseven]
      decide
  · convert hmarked 'ն' (by decide) using 1
    · with_unfolding_all rfl
    · simp only [printedLine, List.cons_append, List.nil_append, List.map_cons, List.map_nil,
        hseven]
      decide

end Holov
