import Holov.Proofs.Grammar.Following
import Holov.Proofs.Relocation.Execution
import Holov.Proofs.Relocation.Lexing
import Holov.Proofs.Relocation.Parser

namespace Holov

/-- Where a position of the second chunk stands in the whole text, given the first chunk. -/
def Position.below (first : String) : Position → Position :=
  down (1 + first.toList.count '\n')

section Chunks

variable {a b : String} {ta tb : List Token} {pa pb : Block}

theorem tokenize_append_newline (ha : tokenize a = .ok ta) (hb : tokenize b = .ok tb)
    (hw : pendingAtEnd false a.toList = false) :
    tokenize (a ++ "\n" ++ b) = .ok (ta ++ tb.map (Token.relocate (.below a))) := by
  have hsplit : (a ++ "\n" ++ b).toList = a.toList ++ (['\n'] ++ b.toList) := by
    simp [String.toList_append]
  -- The newline keeps the last lexeme of `a` from going on in `b`.
  have hn : ∀ c ∈ (['\n'] ++ b.toList).head?, ¬ isLetter c ∧ ¬ c.isDigit := by
    intro c hc
    cases hc
    decide
  rw [tokenize, hsplit, tokensFrom_append ha hn, hw, tokensFrom_blank (by simp [isBlank]),
    ← Position.after_append, Position.after_newline, tokensFrom_down _ hb]
  rfl

theorem parse_append (ha : parse ta = .ok pa) (hb : parse tb = .ok pb)
    (hl : ∀ t, pa.getLast? ≠ some (.expression (.value t))) :
    parse (ta ++ tb) = .ok (pa ++ pb) := by
  rw [Grammar.parse_eq_ok_iff] at ha hb ⊢
  exact ha.append hb hl

/-- The runs of a text are the executions of its program, on any machine with that sink. -/
theorem runsTo_iff_executesTo (ha : tokenize a = .ok ta) (hp : parse ta = .ok pa) {m n : Machine}
    (hs : n.sink = m.sink) {o : Outcome Failure} {sink : Sink} :
    (∃ m', RunsTo false a m (o, m') ∧ m'.sink = sink) ↔
      ∃ r, ExecutesTo pa {} n r ∧ r.outcome.mapError .runtime = o ∧ r.machine.sink = sink := by
  have hm : n.sink = (m.prepared ta pa).sink := hs
  simp only [runsTo_iff ha hp]
  constructor
  · rintro ⟨m', ⟨r, hr, rfl, rfl⟩, rfl⟩
    obtain ⟨r', hr', ho, hsink⟩ := hr.of_sink hm
    exact ⟨r', hr', by rw [ho], hsink⟩
  · rintro ⟨r, hr, rfl, rfl⟩
    obtain ⟨r', hr', ho, hsink⟩ := hr.of_sink hm.symm
    exact ⟨r'.machine, ⟨r', hr', by rw [ho], rfl⟩, hsink⟩

end Chunks

/-- Two chunks that parse, the first of which neither awaits a body opener at its end nor ends in a
bare value, parse as one text to their statements in turn. The run of this text ends as the
statements of the chunks do when they are executed in turn, with the same bytes. -/
theorem run_append_newline {a b : String} {ta tb : List Token} {pa pb : Block}
    (ha : tokenize a = .ok ta) (hb : tokenize b = .ok tb) (hpa : parse ta = .ok pa)
    (hpb : parse tb = .ok pb) (hw : pendingAtEnd false a.toList = false)
    (hl : ∀ t, pa.getLast? ≠ some (.expression (.value t))) :
    ∃ tc, tokenize (a ++ "\n" ++ b) = .ok tc ∧
      parse tc = .ok (pa ++ relocateBlock (.below a) pb) ∧
      ∀ m n : Machine, n.sink = m.sink → ∀ o sink,
        (∃ m', RunsTo false (a ++ "\n" ++ b) m (o, m') ∧ m'.sink = sink) ↔
          ∃ r, ExecuteInTurn pa (relocateBlock (.below a) pb) {} n r ∧
            r.outcome.mapError .runtime = o ∧ r.machine.sink = sink := by
  have ht := tokenize_append_newline ha hb hw
  have hp := parse_append hpa (parse_relocate_of_ok (.below a) hpb) hl
  refine ⟨_, ht, hp, fun m n hs o sink => ?_⟩
  rw [runsTo_iff_executesTo ht hp hs]
  simp only [executesTo_append_iff]

/-- A function that the first chunk defines is called in the second one. -/
theorem run_append_newline_define_call :
    ∃ tc, tokenize ("ա չափոցով գործառույթ «\nտպիր ա» որպես բ" ++ "\n" ++ "բ 5") = .ok tc ∧
      parse tc = .ok [.definition (.function ["ա"] [.expression (.call "տպիր" ⟨2, 1⟩
          [⟨.identifier, "ա", ⟨2, 6⟩⟩])]) "բ" ⟨2, 15⟩,
        .expression (.call "բ" ⟨3, 1⟩ [⟨.number, "5", ⟨3, 3⟩⟩])] ∧
      ∃ m, RunsTo false ("ա չափոցով գործառույթ «\nտպիր ա» որպես բ" ++ "\n" ++ "բ 5") {}
        (.completed, m) ∧ m.sink = { written := #[53, 10] } := by
  have ha : tokenize "ա չափոցով գործառույթ «\nտպիր ա» որպես բ" = .ok
      [⟨.identifier, "ա", ⟨1, 1⟩⟩, ⟨.parameter, "չափոցով", ⟨1, 3⟩⟩,
        ⟨.function, "գործառույթ", ⟨1, 11⟩⟩, ⟨.identifier, "տպիր", ⟨2, 1⟩⟩,
        ⟨.identifier, "ա", ⟨2, 6⟩⟩, ⟨.endFunction, "", ⟨2, 7⟩⟩, ⟨.naming, "որպես", ⟨2, 9⟩⟩,
        ⟨.identifier, "բ", ⟨2, 15⟩⟩] := by
    with_unfolding_all rfl
  have hb : tokenize "բ 5" = .ok [⟨.identifier, "բ", ⟨1, 1⟩⟩, ⟨.number, "5", ⟨1, 3⟩⟩] := by
    with_unfolding_all rfl
  have hpa : parse [⟨.identifier, "ա", ⟨1, 1⟩⟩, ⟨.parameter, "չափոցով", ⟨1, 3⟩⟩,
        ⟨.function, "գործառույթ", ⟨1, 11⟩⟩, ⟨.identifier, "տպիր", ⟨2, 1⟩⟩,
        ⟨.identifier, "ա", ⟨2, 6⟩⟩, ⟨.endFunction, "", ⟨2, 7⟩⟩, ⟨.naming, "որպես", ⟨2, 9⟩⟩,
        ⟨.identifier, "բ", ⟨2, 15⟩⟩] = .ok [.definition (.function ["ա"] [.expression (.call "տպիր"
          ⟨2, 1⟩ [⟨.identifier, "ա", ⟨2, 6⟩⟩])]) "բ" ⟨2, 15⟩] := by
    with_unfolding_all rfl
  have hpb : parse [⟨.identifier, "բ", ⟨1, 1⟩⟩, ⟨.number, "5", ⟨1, 3⟩⟩] =
      .ok [.expression (.call "բ" ⟨1, 1⟩ [⟨.number, "5", ⟨1, 3⟩⟩])] := by
    with_unfolding_all rfl
  obtain ⟨tc, ht, hp, hr⟩ :=
    run_append_newline ha hb hpa hpb (by with_unfolding_all decide) (by simp)
  refine ⟨tc, ht, hp, (hr {} {} rfl _ _).mpr ?_⟩
  refine ⟨_, .inr ⟨_, _, ⟨by simp, 1, rfl⟩, ?_, 1, rfl⟩, ?_, ?_⟩
  · with_unfolding_all decide
  · with_unfolding_all rfl
  · with_unfolding_all rfl

end Holov
