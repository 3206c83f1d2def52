import Holov.Proofs.Grammar
import Holov.Proofs.Lexing.Image

namespace Holov

inductive Bracket where
  | opening
  | closing
deriving DecidableEq, Repr, Inhabited

/-- Brackets match where `n` of them are open already: each closing one has an opening one in front
of it, and none is left open. -/
def Matched : Nat → List Bracket → Prop
  | n, [] => n = 0
  | n, .opening :: bs => Matched (n + 1) bs
  | n + 1, .closing :: bs => Matched n bs
  | 0, .closing :: _ => False

instance decidableMatched : (n : Nat) → (bs : List Bracket) → Decidable (Matched n bs)
  | n, [] => inferInstanceAs (Decidable (n = 0))
  | n, .opening :: bs => decidableMatched (n + 1) bs
  | n + 1, .closing :: bs => decidableMatched n bs
  | 0, .closing :: _ => inferInstanceAs (Decidable False)

/-- The function word opens a body, and a `»` closes it. -/
def Kind.bracket? : Kind → Option Bracket
  | .function => some .opening
  | .endFunction => some .closing
  | _ => none

theorem Kind.bracket?_of_isValue {k : Kind} (h : k.isValue) : k.bracket? = none := by
  cases k with
  | quote | truth | falsity | identifier | number => rfl
  | naming | function | separator | parameter | endFunction | caseEnding => cases h

theorem Kind.bracket?_ofWord (text : String) :
    (Kind.ofWord text).bracket? = if text = Word.function then some .opening else none := by
  by_cases h : text = Word.function
  · rw [if_pos h, h]
    decide
  · rw [if_neg h, Kind.ofWord, if_neg h]
    split_ifs <;> rfl

def brackets (ts : List Token) : List Bracket :=
  ts.filterMap fun t => t.kind.bracket?

theorem brackets_append (ts us : List Token) : brackets (ts ++ us) = brackets ts ++ brackets us :=
  List.filterMap_append

theorem brackets_of_some {t : Token} {k : Kind} {b : Bracket} (h : t.kind = k)
    (hk : k.bracket? = some b) (ts : List Token) : brackets (t :: ts) = b :: brackets ts := by
  subst h
  exact List.filterMap_cons_some hk

theorem brackets_of_none {t : Token} {k : Kind} (h : t.kind = k) (hk : k.bracket? = none)
    (ts : List Token) : brackets (t :: ts) = brackets ts := by
  subst h
  exact List.filterMap_cons_none hk

theorem brackets_of_isValue {t : Token} (h : t.kind.isValue) (ts : List Token) :
    brackets (t :: ts) = brackets ts :=
  brackets_of_none rfl (Kind.bracket?_of_isValue h) ts

namespace Grammar
open Holov.Parser

theorem FullValue.brackets_eq {ts rest : List Token} {o : Operand} (h : FullValue ts o rest) :
    brackets ts = brackets rest := by
  cases h with
  | marked hv he => rw [brackets_of_isValue hv, brackets_of_none he rfl]
  | unmarked hv hn => rw [brackets_of_isValue hv]

theorem Enumeration.brackets_eq {ts vs rest : List Token} (h : Enumeration ts vs rest) :
    brackets ts = brackets rest := by
  induction h with
  | done hn => rfl
  | more hs ho hm ih => rw [brackets_of_none hs rfl, ho.brackets_eq, ih]

-- By induction on the derivations: what they read off has all its brackets matched.
mutual

theorem Expression.matched {ts rest : List Token} {e : Expr} (h : Expression ts e rest) (n : Nat) :
    Matched n (brackets ts) ↔ Matched n (brackets rest) := by
  cases h with
  | markedCall hf hm hj hc => rw [hf.brackets_eq, hj.brackets_eq, brackets_of_none hc rfl]
  | markedValue hf hm hj hn => rw [hf.brackets_eq, hj.brackets_eq]
  | function hf hm hj hp hk hi hb hc =>
    rw [hf.brackets_eq, hj.brackets_eq, brackets_of_none hp rfl, brackets_of_some hk rfl, Matched,
      Statements.matched hb, brackets_of_some hc rfl, Matched]
  | call hf hm hj ha hr => rw [hf.brackets_eq, hj.brackets_eq, ha.brackets_eq, hr.brackets_eq]
  | value hf hm hj hn => rw [hf.brackets_eq, hj.brackets_eq]

theorem Sentence.matched {ts rest : List Token} {s : Statement} (h : Sentence ts s rest) (n : Nat) :
    Matched n (brackets ts) ↔ Matched n (brackets rest) := by
  cases h with
  | definition he ha hi =>
    rw [Expression.matched he, brackets_of_none ha rfl, brackets_of_none hi rfl]
  | expression he hn => exact Expression.matched he n

theorem Statements.matched {ts rest : List Token} {b : Block} (h : Statements ts b rest) (n : Nat) :
    Matched n (brackets ts) ↔ Matched n (brackets rest) := by
  cases h with
  | nil => exact Iff.rfl
  | cons hs hb => rw [Sentence.matched hs, Statements.matched hb]

end

theorem matched_of_parse {ts : List Token} {b : Block} (h : parse ts = .ok b) :
    Matched 0 (brackets ts) := by
  have hp : Statements ts b [] := parse_eq_ok_iff.mp h
  rw [hp.matched]
  rfl

end Grammar

namespace Lexeme

def functionBracket? : Lexeme → Option Bracket
  | word run => if isFunctionWord run then some .opening else none
  | closing => some .closing
  | _ => none

def guillemetBracket? : Lexeme → Option Bracket
  | bodyOpening => some .opening
  | closing => some .closing
  | _ => none

def isLayout : Lexeme → Bool
  | blank _ | comment _ => true
  | _ => false

def OpensBody (ls : List Lexeme) : Prop :=
  (ls.dropWhile isLayout).head? = some bodyOpening

instance (ls : List Lexeme) : Decidable (OpensBody ls) :=
  inferInstanceAs (Decidable (_ = _))

/-- Every function word has the `«` of its body behind it, with nothing but blanks and comments in
between. -/
def BodiesOpened : List Lexeme → Prop
  | [] => True
  | l :: ls => (l.functionBracket? = some .opening → OpensBody ls) ∧ BodiesOpened ls

instance decidableBodiesOpened : (ls : List Lexeme) → Decidable (BodiesOpened ls)
  | [] => inferInstanceAs (Decidable True)
  | _ :: ls =>
    have := decidableBodiesOpened ls
    inferInstanceAs (Decidable (_ ∧ _))

theorem brackets_wordTokens (p : Position) (run : List Char) :
    brackets (wordTokens p run) = if isFunctionWord run then [.opening] else [] := by
  -- The case ending is no bracket, so the stem decides.
  have hending : brackets (if (splitCaseMarker run).2 then
      [⟨.caseEnding, "", ⟨p.line, p.column + (splitCaseMarker run).1.length⟩⟩] else []) = [] := by
    split <;> rfl
  rw [wordTokens, brackets_append, hending, List.append_nil]
  by_cases hs : (splitCaseMarker run).1 = []
  · have hn : isFunctionWord run = false := by
      rw [isFunctionWord, hs]
      decide
    rw [hs, hn]
    rfl
  · have hb := Kind.bracket?_ofWord (String.ofList (splitCaseMarker run).1)
    rw [if_neg (by simpa using hs)]
    by_cases hw : String.ofList (splitCaseMarker run).1 = Word.function
    · rw [if_pos hw] at hb
      rw [brackets_of_some rfl hb, isFunctionWord, decide_eq_true hw]
      rfl
    · rw [if_neg hw] at hb
      rw [brackets_of_none rfl hb, isFunctionWord, decide_eq_false hw]
      rfl

theorem brackets_tokens (p : Position) (l : Lexeme) :
    brackets (l.tokens p) = l.functionBracket?.toList := by
  cases l with
  | word run =>
    rw [tokens, brackets_wordTokens, functionBracket?]
    split <;> rfl
  | blank _ | comment _ | bodyOpening | quote _ | closing | number _ => rfl

/-- Function words and `»` are the same brackets among the tokens as among the lexemes. -/
theorem brackets_tokensOf (p : Position) (ls : List Lexeme) :
    brackets (tokensOf p ls) = ls.filterMap functionBracket? := by
  induction ls generalizing p with
  | nil => rfl
  | cons l ls ih =>
    rw [tokensOf, brackets_append, brackets_tokens, ih]
    cases h : l.functionBracket? with
    | none => rw [List.filterMap_cons_none h]; rfl
    | some b => rw [List.filterMap_cons_some h]; rfl

theorem OpensBody.eq_bodyOpening {l : Lexeme} {ls : List Lexeme} (h : OpensBody (l :: ls))
    (hl : l.isLayout = false) : l = bodyOpening := by
  rw [OpensBody, List.dropWhile_cons_of_neg (by simp [hl])] at h
  exact Option.some.inj h

theorem OpensBody.tail {l : Lexeme} {ls : List Lexeme} (h : OpensBody (l :: ls))
    (hl : l.isLayout = true) : OpensBody ls := by
  rwa [OpensBody, List.dropWhile_cons_of_pos hl] at h

/-- Where each function word has the `«` of its body, the two kinds of opening bracket match alike.
A function word whose `«` is still to come is one bracket more. -/
theorem matched_guillemets {rest : List Char} {pending : Bool} {ls : List Lexeme}
    (hf : FitAll rest pending ls) (ho : BodiesOpened ls) (hp : pending → OpensBody ls) (n : Nat) :
    Matched n (ls.filterMap guillemetBracket?) ↔
      Matched (n + pending.toNat) (ls.filterMap functionBracket?) := by
  induction ls generalizing pending n with
  | nil =>
    cases pending with
    | false => exact Iff.rfl
    | true => cases hp rfl
  | cons l ls ih =>
    -- Only blanks, comments and the `«` itself may stand between a function word and its body.
    have hsettled : l.isLayout = false → l ≠ bodyOpening → pending = false := by
      intro hl hne
      apply Bool.eq_false_iff.mpr
      intro hpending
      exact hne ((hp hpending).eq_bodyOpening hl)
    cases l with
    | blank run => exact ih hf.2 ho.2 (fun h => (hp h).tail rfl) n
    | comment text => exact ih hf.2 ho.2 (fun h => (hp h).tail rfl) n
    | bodyOpening =>
      obtain rfl : pending = true := hf.1
      exact ih hf.2 ho.2 nofun (n + 1)
    | quote text =>
      obtain rfl := hsettled rfl nofun
      exact ih hf.2 ho.2 nofun n
    | number digits =>
      obtain rfl := hsettled rfl nofun
      exact ih hf.2 ho.2 nofun n
    | closing =>
      obtain rfl := hsettled rfl nofun
      cases n with
      | zero => exact Iff.rfl
      | succ n => exact ih hf.2 ho.2 nofun n
    | word run =>
      obtain rfl := hsettled rfl nofun
      have hnext : FitAll rest (isFunctionWord run) ls := hf.2
      have hopens : isFunctionWord run → OpensBody ls := fun hw => ho.1 (if_pos hw)
      have hrest := ih hnext ho.2 hopens n
      cases hw : isFunctionWord run with
      | true =>
        have hb : (word run).functionBracket? = some .opening := if_pos hw
        rw [hw] at hrest
        rw [List.filterMap_cons_some hb]
        exact hrest
      | false =>
        have hb : (word run).functionBracket? = none := by rw [functionBracket?, hw]; rfl
        rw [hw] at hrest
        rw [List.filterMap_cons_none hb]
        exact hrest

theorem quoteOpen_mem_spelling {awaited : Prop} {rest : List Char} {l : Lexeme}
    (hf : l.Fits awaited rest) (h : quoteOpen ∈ l.spelling) :
    l = bodyOpening ∨ (∃ text, l = quote text) ∨ ∃ text, l = comment text := by
  cases l with
  | bodyOpening => exact .inl rfl
  | quote text => exact .inr (.inl ⟨text, rfl⟩)
  | comment text => exact .inr (.inr ⟨text, rfl⟩)
  | blank run => exact absurd (hf.2 _ h) (by decide)
  | closing => exact absurd h (by decide)
  | word run => exact absurd (hf.2.1 _ h) (by decide)
  | number digits => exact absurd (hf.2.1 _ h) (by decide)

end Lexeme

open Lexeme

theorem tokenize_of_segments {source : String} {ls : List Lexeme}
    (h : Segments source.toList ls) : tokenize source = .ok (tokensOf {} ls) := by
  obtain ⟨hspell, hf⟩ := segments_iff.mp h
  have ht := tokenize_spell hf
  rwa [hspell, String.ofList_toList] at ht

/-- In a text that is lexed and parsed, function words and `»` match. If each function word has the
`«` of its body, then these and the `»` match. Any other `«` starts a quote or is in a comment. -/
theorem delimiters_matched {source : String} {ts : List Token} {program : Block}
    (ht : tokenize source = .ok ts) (hp : parse ts = .ok program) {ls : List Lexeme}
    (hs : Segments source.toList ls) :
    Matched 0 (ls.filterMap functionBracket?) ∧
    (BodiesOpened ls → Matched 0 (ls.filterMap guillemetBracket?)) ∧
    ∀ l ∈ ls, quoteOpen ∈ l.spelling →
      l = bodyOpening ∨ (∃ text, l = quote text) ∨ ∃ text, l = comment text := by
  have htokens : ts = tokensOf {} ls := by
    rw [tokenize_of_segments hs] at ht
    exact (Except.ok.inj ht).symm
  have hwords : Matched 0 (ls.filterMap functionBracket?) := by
    rw [← brackets_tokensOf {} ls, ← htokens]
    exact Grammar.matched_of_parse hp
  have hf := (segments_iff.mp hs).2
  refine ⟨hwords, fun ho => (matched_guillemets hf ho nofun 0).mpr hwords, fun l hl hopen => ?_⟩
  obtain ⟨before, after, rfl⟩ := List.append_of_mem hl
  exact quoteOpen_mem_spelling (hs.fits before l after rfl) hopen

/-- A body in a body, with a quote in it and a comment in front of it. -/
theorem delimiters_matched_nested :
    ∃ ls ts program, Segments "ա չափոցով գործառույթ(«)«ա չափոցով գործառույթ«տպիր «(»»»".toList ls ∧
      tokenize "ա չափոցով գործառույթ(«)«ա չափոցով գործառույթ«տպիր «(»»»" = .ok ts ∧
      parse ts = .ok program ∧ BodiesOpened ls ∧ Matched 0 (ls.filterMap guillemetBracket?) := by
  let ls : List Lexeme :=
    [word ['ա'], blank [' '], word Word.parameter.toList, blank [' '], word Word.function.toList,
      comment ['«'], bodyOpening, word ['ա'], blank [' '], word Word.parameter.toList, blank [' '],
      word Word.function.toList, bodyOpening, word "տպիր".toList, blank [' '], quote ['('], closing,
      closing]
  have hs : Segments "ա չափոցով գործառույթ(«)«ա չափոցով գործառույթ«տպիր «(»»»".toList ls :=
    segments_iff.mpr ⟨by decide, by decide⟩
  have ht := tokenize_of_segments hs
  obtain ⟨program, hp⟩ : ∃ program, parse (tokensOf {} ls) = .ok program :=
    ⟨_, by with_unfolding_all rfl⟩
  have hopened : BodiesOpened ls := by decide
  exact ⟨ls, _, program, hs, ht, hp, hopened, (delimiters_matched ht hp hs).2.1 hopened⟩

/-- A body needs no `«`: this text is lexed and parsed, and its only delimiter is a `»`. -/
theorem body_without_opener :
    ∃ ls ts program, Segments "ա չափոցով գործառույթ տպիր ա » որպես ֆ".toList ls ∧
      tokenize "ա չափոցով գործառույթ տպիր ա » որպես ֆ" = .ok ts ∧ parse ts = .ok program ∧
      ¬ BodiesOpened ls ∧ ¬ Matched 0 (ls.filterMap guillemetBracket?) := by
  let ls : List Lexeme :=
    [word ['ա'], blank [' '], word Word.parameter.toList, blank [' '], word Word.function.toList,
      blank [' '], word "տպիր".toList, blank [' '], word ['ա'], blank [' '], closing, blank [' '],
      word Word.naming.toList, blank [' '], word ['ֆ']]
  have hs : Segments "ա չափոցով գործառույթ տպիր ա » որպես ֆ".toList ls :=
    segments_iff.mpr ⟨by decide, by decide⟩
  obtain ⟨program, hp⟩ : ∃ program, parse (tokensOf {} ls) = .ok program :=
    ⟨_, by with_unfolding_all rfl⟩
  exact ⟨ls, _, program, hs, tokenize_of_segments hs, hp, by decide, by decide⟩

end Holov
