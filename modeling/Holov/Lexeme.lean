import Holov.Token

namespace Holov

inductive Lexeme where
  | blank (run : List Char)
  | comment (text : List Char)
  | bodyOpening
  | quote (text : List Char)
  | closing
  | word (letters : List Char)
  | number (digits : List Char)
deriving DecidableEq, Repr, Inhabited

inductive Lexeme.Fault where
  | stray (c : Char)
  | unclosedComment
  | unclosedQuote
deriving DecidableEq, Repr, Inhabited

namespace Lexeme

def spelling : Lexeme → List Char
  | blank run => run
  | comment text => commentOpen :: text ++ [commentClose]
  | bodyOpening => [quoteOpen]
  | quote text => quoteOpen :: text ++ [quoteClose]
  | closing => [quoteClose]
  | word letters => letters
  | number digits => digits

/-- The tokens of a word: its stem, unless the word is a lone case marker, and the case ending. -/
def wordTokens (p : Position) (letters : List Char) : List Token :=
  let (stem, marked) := splitCaseMarker letters
  let text := String.ofList stem
  let stemToken := if stem.isEmpty then [] else [⟨Kind.ofWord text, text, p⟩]
  let ending := if marked then [⟨.caseEnding, "", ⟨p.line, p.column + stem.length⟩⟩] else []
  stemToken ++ ending

def tokens (p : Position) : Lexeme → List Token
  | blank _ | comment _ | bodyOpening => []
  | quote text => [⟨.quote, String.ofList text, p⟩]
  | closing => [⟨.endFunction, "", p⟩]
  | word letters => wordTokens p letters
  | number digits => [⟨.number, String.ofList digits, p⟩]

def isFunctionWord (letters : List Char) : Bool :=
  String.ofList (splitCaseMarker letters).1 = Word.function

/-- Whether the next `«` opens a function body after this lexeme, given whether it did before. -/
def opensBodyNext (pending : Bool) : Lexeme → Bool
  | bodyOpening => false
  | word letters => pending || isFunctionWord letters
  | _ => pending

def textUpTo? (stop : Char) (cs : List Char) : Option (List Char) :=
  if stop ∈ cs then some (cs.takeWhile (· ≠ stop)) else none

/-- The lexeme at the start of `c :: cs`: the first character decides its sort, and a run extends
as far as it can. -/
def first (pending : Bool) (c : Char) (cs : List Char) : Except Fault Lexeme :=
  if isBlank c then .ok (blank (c :: cs.takeWhile isBlank))
  else if c = commentOpen then
    match textUpTo? commentClose cs with
    | some text => .ok (comment text)
    | none => .error .unclosedComment
  else if c = quoteOpen then
    -- Whatever stands in between, the first `«` behind a function word starts no quote.
    if pending then .ok bodyOpening
    else
      match textUpTo? quoteClose cs with
      | some text => .ok (quote text)
      | none => .error .unclosedQuote
  else if c = quoteClose then .ok closing
  else if isLetter c then .ok (word (c :: cs.takeWhile isLetter))
  else if c.isDigit then .ok (number (c :: cs.takeWhile Char.isDigit))
  else .error (.stray c)

theorem textUpTo?_eq_some {stop : Char} {cs text : List Char} (h : textUpTo? stop cs = some text) :
    text ++ stop :: cs.drop (text.length + 1) = cs ∧ stop ∉ text := by
  induction cs generalizing text with
  | nil => simp [textUpTo?] at h
  | cons c cs ih =>
    by_cases hc : c = stop
    · subst hc
      simp only [textUpTo?, List.mem_cons, true_or, if_true, Option.some.injEq] at h
      subst h
      simp
    · by_cases hm : stop ∈ cs
      · simp only [textUpTo?, List.mem_cons, hm, or_true, if_true, Option.some.injEq] at h
        subst h
        have := @ih (cs.takeWhile (· ≠ stop)) (by simp [textUpTo?, hm])
        simp only [ne_eq, hc, not_false_eq_true, decide_true, List.takeWhile_cons_of_pos]
        refine ⟨by simpa using this.1, ?_⟩
        simp only [List.mem_cons, not_or]
        exact ⟨fun e => hc e.symm, this.2⟩
      · simp [textUpTo?, hm, Ne.symm hc] at h

/-- What `first` returns is spelled at the start of the text it was read from. -/
theorem spelling_of_first {pending : Bool} {c : Char} {cs : List Char} {l : Lexeme}
    (h : first pending c cs = .ok l) :
    l.spelling ++ (c :: cs).drop l.spelling.length = c :: cs := by
  unfold first at h
  split at h
  · cases h
    simp [spelling, List.prefix_iff_eq_append.mp (List.takeWhile_prefix _)]
  split at h
  · rename_i hc
    split at h
    · rename_i text ht
      cases h
      have := (textUpTo?_eq_some ht).1
      simp [spelling, hc, this]
    · cases h
  split at h
  · rename_i hc
    split at h
    · cases h
      simp [spelling, hc]
    · split at h
      · rename_i text ht
        cases h
        have := (textUpTo?_eq_some ht).1
        simp [spelling, hc, this]
      · cases h
  split at h
  · rename_i hc
    cases h
    simp [spelling, hc]
  split at h
  · cases h
    simp [spelling, List.prefix_iff_eq_append.mp (List.takeWhile_prefix _)]
  split at h
  · cases h
    simp [spelling, List.prefix_iff_eq_append.mp (List.takeWhile_prefix _)]
  · cases h

end Lexeme

end Holov
