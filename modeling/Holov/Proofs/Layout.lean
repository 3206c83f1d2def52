import Holov.Proofs.Relocation.Execution
import Holov.Proofs.Relocation.Parser

namespace Holov

def forget : Position → Position :=
  fun _ => {}

/-- Both texts parse, to the same program up to positions, or both fail with the same error. -/
def ParseAlike (ts us : List Token) : Prop :=
  (∃ p q, parse ts = .ok p ∧ parse us = .ok q ∧ relocateBlock forget p = relocateBlock forget q) ∨
    ∃ e e', parse ts = .error e ∧ parse us = .error e' ∧ e.relocate forget = e'.relocate forget

/-- The run of a source on `m` ends with an outcome that is `o` up to positions, and leaves the
sink as it says. -/
def EndsAs (source : String) (m : Machine) (o : Outcome Failure) (sink : Sink) : Prop :=
  ∃ o' m', RunsTo false source m (o', m') ∧ o'.mapError (Failure.relocate forget) = o ∧
    m'.sink = sink

theorem map_forget {ts us : List Token}
    (h : ts.map (fun t => (t.kind, t.text)) = us.map fun t => (t.kind, t.text)) :
    ts.map (Token.relocate forget) = us.map (Token.relocate forget) := by
  have hf : ∀ vs : List Token, vs.map (Token.relocate forget) =
      (vs.map fun t => (t.kind, t.text)).map fun w => ⟨w.1, w.2, {}⟩ := by
    intro vs
    rw [List.map_map]
    rfl
  rw [hf, hf, h]

theorem parseAlike_of_words {ts us : List Token}
    (h : ts.map (fun t => (t.kind, t.text)) = us.map fun t => (t.kind, t.text)) :
    ParseAlike ts us := by
  have ht := (parse_relocate forget ts).ok_or_error
  have hu := (parse_relocate forget us).ok_or_error
  rw [← map_forget h] at hu
  obtain ⟨p, p', hp, hp', rfl⟩ | ⟨e, hp, hp'⟩ := ht
  · obtain ⟨q, q', hq, hq', rfl⟩ | ⟨e, hq, hq'⟩ := hu
    · exact .inl ⟨p, q, hp, hq, Except.ok.inj (hp'.symm.trans hq')⟩
    · cases hp'.symm.trans hq'
  · obtain ⟨q, q', hq, hq', rfl⟩ | ⟨e', hq, hq'⟩ := hu
    · cases hp'.symm.trans hq'
    · exact .inr ⟨e, e', hp, hq, Except.error.inj (hp'.symm.trans hq')⟩

theorem Outcome.runtime_relocate (f : Position → Position) (o : Outcome RuntimeError) :
    (o.mapError Failure.runtime).mapError (Failure.relocate f) =
      (o.mapError (RuntimeError.relocate f)).mapError .runtime := by
  cases o <;> rfl

/-- Two programs that are the same up to positions are executed alike. -/
theorem execute_of_forget {p q : Block} (h : relocateBlock forget p = relocateBlock forget q)
    (depth : Nat) {m n : Machine} (hs : m.sink = n.sink) :
    (execute depth p {} m).outcome.mapError (RuntimeError.relocate forget) =
        (execute depth q {} n).outcome.mapError (RuntimeError.relocate forget) ∧
      (execute depth p {} m).machine.sink = (execute depth q {} n).machine.sink := by
  have hp := execute_relocate forget depth p {} (rfl : m.sink = m.sink)
  have hq := execute_relocate forget depth q {} hs
  rw [← h] at hq
  exact ⟨hp.outcome.symm.trans hq.outcome, hp.sink.symm.trans hq.sink⟩

section Sources

variable {s₁ s₂ : String} {ts us : List Token} (h₁ : tokenize s₁ = .ok ts)
  (h₂ : tokenize s₂ = .ok us) (h : ParseAlike ts us)
include h₁ h₂ h

theorem run_of_parseAlike (depth : Nat) (m : Machine) :
    (run false depth s₁ m).1.mapError (Failure.relocate forget) =
        (run false depth s₂ m).1.mapError (Failure.relocate forget) ∧
      (run false depth s₁ m).2.sink = (run false depth s₂ m).2.sink := by
  obtain ⟨p, q, hp, hq, hpq⟩ | ⟨e, e', hp, hq, he⟩ := h
  · rw [run_of_parse_ok h₁ hp, run_of_parse_ok h₂ hq]
    -- The logs of the two machines may differ, which no execution sees.
    have hm : (m.prepared ts p).sink = (m.prepared us q).sink := rfl
    obtain ⟨ho, hs⟩ := execute_of_forget hpq depth hm
    refine ⟨?_, hs⟩
    rw [Outcome.runtime_relocate, Outcome.runtime_relocate, ho]
  · rw [run_of_parse_error h₁ hp, run_of_parse_error h₂ hq]
    refine ⟨?_, rfl⟩
    simp only [Outcome.mapError, Failure.relocate, he]

theorem EndsAs.of_parseAlike {m : Machine} {o : Outcome Failure} {sink : Sink}
    (he : EndsAs s₁ m o sink) : EndsAs s₂ m o sink := by
  obtain ⟨o', m', ⟨hd, depth, hr⟩, rfl, rfl⟩ := he
  obtain ⟨ho, hs⟩ := run_of_parseAlike h₁ h₂ h depth m
  rcases hr' : run false depth s₂ m with ⟨o₂, m₂⟩
  rw [hr, hr'] at ho hs
  refine ⟨o₂, m₂, ⟨fun ht => ?_, depth, hr'⟩, ho.symm, hs.symm⟩
  obtain rfl : o₂ = .tooDeep := ht
  exact hd (Outcome.mapError_eq_tooDeep.mp ho)

end Sources

/-- Sources whose tokens agree in kind and text parse alike, and their runs end with the same
outcome up to positions and the same bytes, on any machine. -/
theorem run_layout_independent {s₁ s₂ : String} {ts us : List Token} (h₁ : tokenize s₁ = .ok ts)
    (h₂ : tokenize s₂ = .ok us)
    (h : ts.map (fun t => (t.kind, t.text)) = us.map fun t => (t.kind, t.text)) :
    ParseAlike ts us ∧ ∀ m o sink, EndsAs s₁ m o sink ↔ EndsAs s₂ m o sink := by
  refine ⟨parseAlike_of_words h, fun m o sink => ?_⟩
  constructor
  · exact EndsAs.of_parseAlike h₁ h₂ (parseAlike_of_words h)
  · exact EndsAs.of_parseAlike h₂ h₁ (parseAlike_of_words h.symm)

/-- A call in one line, and with a line break and a comment in it. -/
theorem run_layout_independent_call :
    tokenize "5ն տպիր" ≠ tokenize "5\n(ա) ն  տպիր" ∧
      EndsAs "5\n(ա) ն  տպիր" {} .completed { written := #[53, 10] } := by
  have h₁ : tokenize "5ն տպիր" = .ok [⟨.number, "5", ⟨1, 1⟩⟩, ⟨.caseEnding, "", ⟨1, 2⟩⟩,
      ⟨.identifier, "տպիր", ⟨1, 4⟩⟩] := by
    with_unfolding_all rfl
  have h₂ : tokenize "5\n(ա) ն  տպիր" = .ok [⟨.number, "5", ⟨1, 1⟩⟩, ⟨.caseEnding, "", ⟨2, 5⟩⟩,
      ⟨.identifier, "տպիր", ⟨2, 8⟩⟩] := by
    with_unfolding_all rfl
  have hr : EndsAs "5ն տպիր" {} .completed { written := #[53, 10] } := by
    have ho : (run false 0 "5ն տպիր" {}).1 = .completed := by decide +kernel
    have hs : (run false 0 "5ն տպիր" {}).2.sink = { written := #[53, 10] } := by decide +kernel
    rcases hx : run false 0 "5ն տպիր" {} with ⟨o, m⟩
    rw [hx] at ho hs
    obtain rfl : o = .completed := ho
    exact ⟨.completed, m, ⟨nofun, 0, hx⟩, rfl, hs⟩
  exact ⟨by rw [h₁, h₂]; simp, ((run_layout_independent h₁ h₂ rfl).2 _ _ _).mp hr⟩

end Holov
