import Holov.Proofs.Segmentation

namespace Holov

namespace Position

/-- Text moves the position to a later line, or by its length on the same one. -/
theorem after_line_or_column (p : Position) (cs : List Char) :
    p.line < (p.after cs).line ∨
      (p.after cs).line = p.line ∧ (p.after cs).column = p.column + cs.length := by
  induction cs generalizing p with
  | nil => simp
  | cons c cs ih =>
    rw [after_cons, List.length_cons]
    have hrest := ih (p.advance c)
    by_cases hc : c = '\n'
    · simp only [advance, hc, if_true] at hrest ⊢
      omega
    · rw [advance_of_ne hc] at hrest ⊢
      dsimp only at hrest
      omega

/-- The position of a character says how much text is in front of it. -/
theorem behind_injective {text before before' : List Char} (h : before <+: text)
    (h' : before' <+: text) (hp : behind before = behind before') : before = before' := by
  have key : ∀ cs ds : List Char, behind cs = behind (cs ++ ds) → ds = [] := by
    intro cs ds he
    have hmove := (behind cs).after_line_or_column ds
    rw [after_behind, ← he] at hmove
    exact List.length_eq_zero_iff.mp (by omega)
  rcases List.prefix_or_prefix_of_prefix h h' with ⟨ds, rfl⟩ | ⟨ds, rfl⟩
  · rw [key _ _ hp, List.append_nil]
  · rw [key _ _ hp.symm, List.append_nil]

end Position

namespace Lexeme

theorem textUpTo?_eq_none_iff {stop : Char} {cs : List Char} :
    textUpTo? stop cs = none ↔ stop ∉ cs := by
  simp [textUpTo?]

/-- The fault of a character `c` in front of `rest`, where `pending` says whether the next `«`
opens a function body. -/
def Fault.Occurs (pending : Bool) (c : Char) (rest : List Char) : Fault → Prop
  | stray d => d = c ∧ isLetter c = false ∧ c.isDigit = false ∧
      c ∉ [' ', '\n', commentOpen, quoteOpen, quoteClose]
  | unclosedComment => c = commentOpen ∧ commentClose ∉ rest
  | unclosedQuote => c = quoteOpen ∧ pending = false ∧ quoteClose ∉ rest

theorem first_eq_error_iff {pending : Bool} {c : Char} {rest : List Char} {fault : Fault} :
    first pending c rest = .error fault ↔ fault.Occurs pending c rest := by
  constructor
  · intro h
    unfold first at h
    split at h
    · cases h
    rename_i hblank
    split at h
    · rename_i hc
      split at h
      · cases h
      · rename_i hnone
        cases h
        exact ⟨hc, textUpTo?_eq_none_iff.mp hnone⟩
    rename_i hcomment
    split at h
    · rename_i hc
      split at h
      · cases h
      · rename_i hp
        split at h
        · cases h
        · rename_i hnone
          cases h
          exact ⟨hc, by simpa using hp, textUpTo?_eq_none_iff.mp hnone⟩
    rename_i hopen
    split at h
    · cases h
    rename_i hclose
    split at h
    · cases h
    rename_i hletter
    split at h
    · cases h
    rename_i hdigit
    cases h
    refine ⟨rfl, by simpa using hletter, by simpa using hdigit, ?_⟩
    simp only [isBlank, Bool.or_eq_true, decide_eq_true_eq, not_or] at hblank
    simp [hblank, hcomment, hopen, hclose]
  · intro h
    cases fault with
    | stray d =>
      obtain ⟨rfl, hletter, hdigit, hd⟩ := h
      rw [first_of_notMem rest hd, hletter, hdigit]
      rfl
    | unclosedComment =>
      obtain ⟨rfl, hrest⟩ := h
      have hb : isBlank commentOpen = false := by decide
      simp [first, hb, textUpTo?_eq_none_iff.mpr hrest]
    | unclosedQuote =>
      obtain ⟨rfl, rfl, hrest⟩ := h
      have hb : isBlank quoteOpen = false := by decide
      have hc : quoteOpen ≠ commentOpen := by decide
      simp [first, hb, hc, textUpTo?_eq_none_iff.mpr hrest]

/-- A character with a fault goes on with no run of letters or digits. -/
theorem Fault.Occurs.not_in_run {pending : Bool} {c : Char} {rest : List Char} {fault : Fault}
    (h : fault.Occurs pending c rest) : ¬ isLetter c ∧ ¬ c.isDigit := by
  cases fault with
  | stray d => exact ⟨by simp [h.2.1], by simp [h.2.2.1]⟩
  | unclosedComment =>
    rw [h.1]
    decide
  | unclosedQuote =>
    rw [h.1]
    decide

end Lexeme

open Lexeme

/-- Lexemes leave a body opener awaited if their text does. -/
theorem pendingAtEnd_spell {pending : Bool} {ls : List Lexeme} (h : FitAll [] pending ls) :
    pendingAtEnd pending (spell ls) = pendingAfter pending ls := by
  -- A `«»` behind them shows it: if an opener is awaited there is only a `»` to read, and else
  -- there is an empty quote.
  have hopened : ∀ q, tokensFrom q true [quoteOpen, quoteClose] =
      .ok (tokensOf q [.bodyOpening, .closing]) :=
    @tokensFrom_spell_nil true [.bodyOpening, .closing] ⟨rfl, trivial, trivial⟩
  have hquoted : ∀ q, tokensFrom q false [quoteOpen, quoteClose] =
      .ok (tokensOf q [.quote []]) :=
    @tokensFrom_spell_nil false [.quote []] ⟨⟨nofun, nofun⟩, trivial⟩
  have hnext : ∀ c ∈ [quoteOpen, quoteClose].head?, ¬ isLetter c ∧ ¬ c.isDigit := by
    intro c hc
    cases hc
    decide
  have hread := tokensFrom_append (tokensFrom_spell_nil h {}) hnext
  rw [tokensFrom_spell (h.of_nil hnext)] at hread
  cases hend : pendingAtEnd pending (spell ls) <;> cases hafter : pendingAfter pending ls
  · rfl
  · rw [hend, hafter, hopened, hquoted] at hread
    simp [Except.map, tokensOf, tokens] at hread
  · rw [hend, hafter, hopened, hquoted] at hread
    simp [Except.map, tokensOf, tokens] at hread
  · rfl

section Continued

variable {before : List Char} {ts : List Token} (hb : tokensFrom {} false before = .ok ts)
  {c : Char} (hc : ¬ isLetter c ∧ ¬ c.isDigit)
include hb hc

/-- A lexed text, and then one that starts with no letter or digit. -/
theorem tokensFrom_continued (rest : List Char) :
    tokensFrom {} false (before ++ c :: rest) =
      (tokensFrom (.behind before) (pendingAtEnd false before) (c :: rest)).map (ts ++ ·) := by
  have hnext : ∀ d ∈ (c :: rest).head?, ¬ isLetter d ∧ ¬ d.isDigit := by
    intro d hd
    cases hd
    exact hc
  rw [tokensFrom_append hb hnext]
  congr 2
  exact Position.after_behind [] before

theorem tokensFrom_of_fault {rest : List Char} {fault : Fault}
    (hf : fault.Occurs (pendingAtEnd false before) c rest) :
    tokensFrom {} false (before ++ c :: rest) = .error ⟨fault, .behind before⟩ := by
  rw [tokensFrom_continued hb hc, tokensFrom, first_eq_error_iff.mpr hf]
  rfl

theorem tokensFrom_concat {cs : List Char} {l : Lexeme} (hs : l.spelling = c :: cs)
    (hl : l.Fits (pendingAtEnd false before) []) :
    tokensFrom {} false (before ++ c :: cs) = .ok (ts ++ l.tokens (.behind before)) := by
  have hread := tokensFrom_lexeme hl (.behind before)
  rw [List.append_nil, hs, tokensFrom] at hread
  rw [tokensFrom_continued hb hc, hread]
  simp [Except.map]

end Continued

/-- Where a text cannot be lexed there is a fault, and the text in front of it can be lexed. -/
theorem exists_fault {source : String} {e : LexError} (h : tokenize source = .error e) :
    ∃ before c after ts, source.toList = before ++ c :: after ∧ e.position = .behind before ∧
      tokensFrom {} false before = .ok ts ∧
      e.fault.Occurs (pendingAtEnd false before) c after := by
  obtain ⟨ls, c, rest, hs, hfit, hp, hfirst⟩ := exists_lexemes_of_error h
  refine ⟨spell ls, c, rest, tokensOf {} ls, hs.symm, ?_, tokensFrom_spell_nil hfit.to_nil {}, ?_⟩
  · rw [hp]
    exact Position.after_behind [] (spell ls)
  · rw [pendingAtEnd_spell hfit.to_nil]
    exact first_eq_error_iff.mp hfirst

/-- An error is at the one place where its position is, which is a character of the text. What is in
front of it can be lexed. At a stray character all texts fail that begin like this one. With the
delimiter that is missing, an open comment has no tokens, and an open quote is one with all of the
text behind it. -/
theorem tokenize_error_exact {source : String} {e : LexError} (h : tokenize source = .error e) :
    ∃ before c after ts, source.toList = before ++ c :: after ∧
      (∀ other, other <+: source.toList → (e.position = .behind other ↔ other = before)) ∧
      tokenize (String.ofList before) = .ok ts ∧
      e.fault.Occurs (pendingAtEnd false before) c after ∧
      match e.fault with
      | .stray _ => ∀ t, tokenize (String.ofList (before ++ c :: t)) = .error e
      | .unclosedComment => tokenize (source ++ ")") = .ok ts
      | .unclosedQuote => tokenize (source ++ "»") =
          .ok (ts ++ [⟨.quote, String.ofList after, e.position⟩]) := by
  obtain ⟨before, c, after, ts, hs, hp, hb, hf⟩ := exists_fault h
  have hc := hf.not_in_run
  have hbefore : before <+: source.toList := ⟨c :: after, hs.symm⟩
  refine ⟨before, c, after, ts, hs, fun other ho => ?_, ?_, hf, ?_⟩
  · rw [hp]
    constructor
    · exact fun he => (Position.behind_injective hbefore ho he).symm
    · rintro rfl
      rfl
  · rwa [tokenize, String.toList_ofList]
  · obtain ⟨fault, p⟩ := e
    subst hp
    simp only [tokenize, String.toList_ofList, String.toList_append, hs, List.append_assoc,
      List.cons_append]
    cases fault with
    | stray d => exact fun t => tokensFrom_of_fault hb hc hf
    | unclosedComment =>
      obtain ⟨rfl, hafter⟩ := hf
      have hclosed := tokensFrom_concat hb hc (l := .comment after) rfl hafter
      rwa [tokens, List.append_nil] at hclosed
    | unclosedQuote =>
      obtain ⟨rfl, hpending, hafter⟩ := hf
      exact tokensFrom_concat hb hc (l := .quote after) rfl ⟨by simp [hpending], hafter⟩

/-- A quote on the second line, behind a comment, is never closed. -/
theorem tokenize_error_exact_open_quote :
    tokenize "5\n(ա) «բ(" = .error ⟨.unclosedQuote, ⟨2, 5⟩⟩ ∧
      tokenize ("5\n(ա) «բ(" ++ "»") =
        .ok [⟨.number, "5", ⟨1, 1⟩⟩, ⟨.quote, "բ(", ⟨2, 5⟩⟩] := by
  have h : tokenize "5\n(ա) «բ(" = .error ⟨.unclosedQuote, ⟨2, 5⟩⟩ := by with_unfolding_all rfl
  have hfront : tokenize "5\n(ա) " = .ok [⟨.number, "5", ⟨1, 1⟩⟩] := by with_unfolding_all rfl
  obtain ⟨before, c, after, ts, hs, hat, hbefore, -, hclosed⟩ := tokenize_error_exact h
  obtain rfl : "5\n(ա) ".toList = before := (hat _ (by decide)).mp (by decide)
  have hsplit : "5\n(ա) «բ(".toList = "5\n(ա) ".toList ++ quoteOpen :: "բ(".toList := by decide
  obtain rfl : "բ(".toList = after :=
    (List.cons.inj (List.append_cancel_left (hsplit.symm.trans hs))).2
  rw [String.ofList_toList, hfront] at hbefore
  cases hbefore
  exact ⟨h, hclosed⟩

end Holov
