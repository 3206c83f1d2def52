import Holov.Proofs.Lexing

namespace Holov

/-- What a character leaves behind when it is blanked out: newlines stay, so that no line moves. -/
def blankOut (c : Char) : Char :=
  if c = '\n' then '\n' else ' '

theorem isBlank_blankOut (c : Char) : isBlank (blankOut c) := by
  unfold blankOut
  split <;> decide

namespace Position

theorem advance_blankOut (p : Position) (c : Char) : p.advance (blankOut c) = p.advance c := by
  unfold blankOut
  split
  · rename_i hc
    rw [hc]
  · rename_i hc
    rw [advance_of_ne hc, advance_of_ne (by decide)]

/-- Blanking a text out moves nothing behind it. -/
theorem after_blankOut (p : Position) (cs : List Char) :
    p.after (cs.map blankOut) = p.after cs := by
  induction cs generalizing p with
  | nil => rfl
  | cons c cs ih => rw [List.map_cons, after_cons, after_cons, advance_blankOut, ih]

end Position

/-- A comment in front of any text, readable or not, is read as the spaces in its place. -/
theorem tokensFrom_comment {text : List Char} (h : commentClose ∉ text) (p : Position)
    (pending : Bool) (rest : List Char) :
    tokensFrom p pending ((Lexeme.comment text).spelling ++ rest) =
      tokensFrom p pending ((Lexeme.comment text).spelling.map blankOut ++ rest) := by
  have hblank : ∀ c ∈ (Lexeme.comment text).spelling.map blankOut, isBlank c := by
    intro c hc
    obtain ⟨d, -, rfl⟩ := List.mem_map.mp hc
    exact isBlank_blankOut d
  have hfits : (Lexeme.comment text).Fits pending rest := h
  rw [tokensFrom_blank hblank, Position.after_blankOut, tokensFrom_lexeme hfits]
  change (tokensFrom _ pending rest).map ([] ++ ·) = _
  cases tokensFrom (p.after (Lexeme.comment text).spelling) pending rest <;> rfl

/-- Behind a text that can be lexed, a comment and the spaces in its place are lexed to the same
tokens at the same positions, or to the same error, whatever follows. -/
theorem tokenize_comment_blank {a : String} {ts : List Token} (ha : tokenize a = .ok ts)
    {c : String} (hc : commentClose ∉ c.toList) (b : String) :
    tokenize (a ++ "(" ++ c ++ ")" ++ b) = tokenize (a ++ " " ++ c.map blankOut ++ " " ++ b) := by
  have hcomment : (a ++ "(" ++ c ++ ")" ++ b).toList =
      a.toList ++ ((Lexeme.comment c.toList).spelling ++ b.toList) := by
    simp [Lexeme.spelling, commentOpen, commentClose]
  have hspaces : (a ++ " " ++ c.map blankOut ++ " " ++ b).toList =
      a.toList ++ ((Lexeme.comment c.toList).spelling.map blankOut ++ b.toList) := by
    simp [Lexeme.spelling, commentOpen, commentClose, blankOut]
  -- Neither `(` nor a space goes on with the last run of the text in front.
  have hopen : ∀ d ∈ ((Lexeme.comment c.toList).spelling ++ b.toList).head?,
      ¬ isLetter d ∧ ¬ d.isDigit := by
    intro d hd
    cases hd
    decide
  have hspace : ∀ d ∈ ((Lexeme.comment c.toList).spelling.map blankOut ++ b.toList).head?,
      ¬ isLetter d ∧ ¬ d.isDigit := by
    intro d hd
    cases hd
    decide
  rw [tokenize, tokenize, hcomment, hspaces, tokensFrom_append ha hopen,
    tokensFrom_append ha hspace, tokensFrom_comment hc]

/-- A comment with a newline, between a function word and the `«` of its body. -/
theorem tokenize_comment_blank_before_body :
    tokenize ("ա չափոցով գործառույթ" ++ "(" ++ "«\n5" ++ ")" ++ "«ա») «") =
        tokenize ("ա չափոցով գործառույթ" ++ " " ++ " \n " ++ " " ++ "«ա») «") ∧
      tokenize "ա չափոցով գործառույթ(«\n5)«ա») «" = .error ⟨.stray ')', ⟨2, 6⟩⟩ := by
  have ha : tokenize "ա չափոցով գործառույթ" = .ok [⟨.identifier, "ա", ⟨1, 1⟩⟩,
      ⟨.parameter, "չափոցով", ⟨1, 3⟩⟩, ⟨.function, "գործառույթ", ⟨1, 11⟩⟩] := by
    with_unfolding_all rfl
  have hc : commentClose ∉ "«\n5".toList := by decide
  have hblank : "«\n5".map blankOut = " \n " := by
    rw [← String.toList_inj, String.toList_map]
    decide
  have h := tokenize_comment_blank ha hc "«ա») «"
  rw [hblank] at h
  refine ⟨h, ?_⟩
  with_unfolding_all rfl

end Holov
