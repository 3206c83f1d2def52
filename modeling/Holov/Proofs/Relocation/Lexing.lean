import Holov.Proofs.Lexing
import Holov.Proofs.Relocation

namespace Holov

namespace Position

def down (n : Nat) (p : Position) : Position :=
  ⟨p.line + n, p.column⟩

theorem advance_down (n : Nat) (p : Position) (c : Char) :
    (p.down n).advance c = (p.advance c).down n := by
  unfold advance
  split
  · have hl : p.line + n + 1 = p.line + 1 + n := by omega
    simp [down, hl]
  · rfl

theorem after_down (n : Nat) (p : Position) (cs : List Char) :
    (p.down n).after cs = (p.after cs).down n := by
  induction cs generalizing p with
  | nil => rfl
  | cons c cs ih => rw [after_cons, after_cons, advance_down, ih]

theorem after_line (p : Position) (cs : List Char) :
    (p.after cs).line = p.line + cs.count '\n' := by
  induction cs generalizing p with
  | nil => rfl
  | cons c cs ih =>
    rw [after_cons, ih, List.count_cons]
    unfold advance
    by_cases hc : c = '\n'
    · simp only [hc, if_true, beq_self_eq_true]
      omega
    · simp [hc]

/-- The text behind a newline starts as a text does, that many lines further down. -/
theorem after_newline (cs : List Char) :
    ({} : Position).after (cs ++ ['\n']) = down (1 + cs.count '\n') {} := by
  have hl : (({} : Position).after cs).line + 1 = 1 + (1 + cs.count '\n') := by
    simp only [after_line]
    omega
  rw [after_append, after_cons, after_nil, advance, if_pos rfl, hl]
  rfl

end Position

open Lexeme

theorem Lexeme.tokens_down (n : Nat) (p : Position) (l : Lexeme) :
    l.tokens (p.down n) = (l.tokens p).map (Token.relocate (.down n)) := by
  cases l with
  | word letters =>
    simp only [tokens, wordTokens]
    split <;> split <;> rfl
  | _ => rfl

theorem Lexeme.tokensOf_down (n : Nat) (p : Position) (ls : List Lexeme) :
    tokensOf (p.down n) ls = (tokensOf p ls).map (Token.relocate (.down n)) := by
  induction ls generalizing p with
  | nil => rfl
  | cons l ls ih => rw [tokensOf, tokensOf, tokens_down, Position.after_down, ih, List.map_append]

theorem tokensFrom_down (n : Nat) {p : Position} {pending : Bool} {cs : List Char}
    {ts : List Token} (h : tokensFrom p pending cs = .ok ts) :
    tokensFrom (p.down n) pending cs = .ok (ts.map (Token.relocate (.down n))) := by
  obtain ⟨ls, rfl, hf, rfl, -⟩ := exists_lexemes h
  rw [tokensFrom_spell_nil hf, tokensOf_down]

end Holov
